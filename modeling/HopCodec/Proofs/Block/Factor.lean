/-
Compression factors are powers of two, and rise with the quality.  Powers of singles are left open;
those of whole exponents are an instance.
-/
import HopCodec.Block.Shape
import HopCodec.Proofs.Single.Monotone

namespace HopCodec

open Single

/-- Powers of two with a rising exponent, as far as qualities ask for them. -/
structure Power.Rises (pow : Power) : Prop where
  nonneg : ∀ q ≤ 99, 0.0 ≤ compressionFactor pow q
  le : ∀ q ≤ 99, compressionFactor pow q ≤ 1024.0
  mono : ∀ q q', q ≤ q' → q' ≤ 99 → compressionFactor pow q ≤ compressionFactor pow q'

theorem Power.Rises.exists_bounded {pow : Power} (h : pow.Rises) {q q' : ℕ} (hqq' : q ≤ q')
    (hq' : q' ≤ 99) : ∃ f f', Bounded (compressionFactor pow q) f 10 ∧
      Bounded (compressionFactor pow q') f' 10 ∧ f ≤ f' := by
  have hmax : Denotes 1024.0 1024 := denotes_of_parts 8388608 (-13) (by decide) rfl (by norm_num)
  obtain ⟨f, hf, hnonneg, hle⟩ :=
    exists_denotes_of_le denotes_zero hmax (h.nonneg q (hqq'.trans hq')) (h.le q (hqq'.trans hq'))
  obtain ⟨f', hf', hnonneg', hle'⟩ :=
    exists_denotes_of_le denotes_zero hmax (h.nonneg q' hq') (h.le q' hq')
  exact ⟨f, f', ⟨hf, hnonneg, by linarith⟩, ⟨hf', hnonneg', by linarith⟩,
    (hf.le_iff hf').mp (h.mono q q' hqq' hq')⟩

def Codec.wholePower : Power := fun base exponent =>
  (List.replicate (floorNat exponent) base).foldl (· * ·) 1.0

section WholePower

open Codec

theorem denotes_foldl_double {n : ℕ} (hn : n ≤ 10) :
    Denotes ((List.replicate n (2.0 : Float32)).foldl (· * ·) 1.0) (2 ^ n) := by
  induction n with
  | zero => exact denotes_one
  | succ n ih =>
      have hle : (2 : ℚ) ^ (n + 1) ≤ 2 ^ 10 := pow_le_pow_right₀ (by norm_num) hn
      have hrepresentable : Representable ((2 : ℚ) ^ (n + 1)) :=
        representable_two_zpow (e := (n + 1 : ℕ)) (by omega)
      rw [List.replicate_succ', List.foldl_append]
      refine ((ih (by omega)).mul denotes_two).exact (pow_succ 2 n).symm hrepresentable ?_
      rw [abs_of_nonneg (by positivity)]
      linarith

theorem floorNat_tenth {q : ℕ} (hq : q ≤ 99) :
    floorNat (ofNat q / 10.0) = ⌊nearest (q / 10)⌋₊ ∧ floorNat (ofNat q / 10.0) ≤ 10 := by
  have hcast : (q : ℚ) ≤ 99 := by exact_mod_cast hq
  have hle : nearest ((q : ℚ) / 10) ≤ 10 := denotes_ten.representable.nearest_le (by linarith)
  have hfloor := (denotes_tenth (n := q) (by omega)).floorNat_eq (by linarith)
  exact ⟨hfloor, hfloor.trans_le (Nat.floor_le_of_le (by exact_mod_cast hle))⟩

theorem denotes_factor_wholePower {q : ℕ} (hq : q ≤ 99) :
    Denotes (compressionFactor wholePower q) (2 ^ floorNat (ofNat q / 10.0)) :=
  denotes_foldl_double (floorNat_tenth hq).2

/-- Exponents that are cut to whole numbers still rise, and powers of two with them. -/
theorem rises_wholePower : Power.Rises wholePower := by
  refine ⟨fun q hq => ?_, fun q hq => ?_, fun q q' hle hq' => ?_⟩
  · exact (denotes_zero.le_iff (denotes_factor_wholePower hq)).mpr (by positivity)
  · have hmax : Denotes 1024.0 (2 ^ 10) :=
      denotes_of_parts 8388608 (-13) (by decide) rfl (by norm_num)
    exact ((denotes_factor_wholePower hq).le_iff hmax).mpr
      (pow_le_pow_right₀ (by norm_num) (floorNat_tenth hq).2)
  · have hq := hle.trans hq'
    refine ((denotes_factor_wholePower hq).le_iff (denotes_factor_wholePower hq')).mpr
      (pow_le_pow_right₀ (by norm_num) ?_)
    rw [(floorNat_tenth hq).1, (floorNat_tenth hq').1]
    exact Nat.floor_mono (nearest_mono
      (div_le_div_of_nonneg_right (by exact_mod_cast hle) (by norm_num)))

end WholePower

end HopCodec
