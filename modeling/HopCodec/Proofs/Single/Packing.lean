/-
The 32 bits of a single.  Packing a canonical single loses nothing, unless its exponent is too
large: then the bits are those of an infinity.
-/
import HopCodec.Proofs.Single.Unpacked

namespace HopCodec.Single

open Float.Model Float.Model.UnpackedFloat

theorem toNat_implicitBit (m : BitVec 23) : ((1#1 : BitVec 1) ++ m).toNat = 2 ^ 23 + m.toNat := by
  have hm := m.isLt
  rw [BitVec.toNat_append, ← Nat.shiftLeft_add_eq_or_of_lt hm]
  rfl

/-- The greatest exponent of a finite single. -/
def greatestExponent : ℤ := 104

theorem unpack_normal (s : Sign) {e : BitVec 8} (m : BitVec 23) (hleast : e ≠ 0#8)
    (hgreatest : e ≠ -1#8) :
    UnpackedFloat.unpack .binary32 (packComponents .binary32 s e m) =
      .finite s (2 ^ 23 + m.toNat) (e.toNat - 150) (by omega) := by
  simp only [UnpackedFloat.unpack, unpackSign_packComponents, unpackMantissa_packComponents,
    unpackExponent_packComponents, Sign.ofBitVec_toBitVec]
  rw [if_neg hgreatest, if_neg hleast]
  simp only [toNat_implicitBit]
  rfl

theorem unpack_subnormal (s : Sign) {m : BitVec 23} (hm : m ≠ 0#23) :
    UnpackedFloat.unpack .binary32 (packComponents .binary32 s 0#8 m) =
      .finite s m.toNat (-149) (by simpa [BitVec.toNat_pos, BitVec.pos_iff_ne_zero]) := by
  simp only [UnpackedFloat.unpack, unpackSign_packComponents, unpackMantissa_packComponents,
    unpackExponent_packComponents, Sign.ofBitVec_toBitVec]
  rw [if_neg (by decide), if_pos trivial, dif_neg hm]
  rfl

theorem pack_finite (s : Sign) {m : ℕ} (e : ℤ) (hm : 0 < m) :
    UnpackedFloat.pack .binary32 (.finite s m e hm) =
      if 2 ^ 8 ≤ (e + 127 + 23).toNat + 1 then packedInfinity .binary32 s
      else if m.log2 + 1 = 24 then
        packComponents .binary32 s (BitVec.ofNat 8 (e + 127 + 23).toNat) (BitVec.ofNat 23 m)
      else packComponents .binary32 s 0#8 (BitVec.ofNat 23 m) :=
  rfl

/-- Packing loses nothing of a canonical single within range. -/
theorem unpack_pack {s : Sign} {m : ℕ} {e : ℤ} {hm : 0 < m} (h : Canonical (.finite s m e hm))
    (he : e ≤ greatestExponent) :
    UnpackedFloat.unpack .binary32 (UnpackedFloat.pack .binary32 (.finite s m e hm)) =
      .finite s m e hm := by
  obtain ⟨hhigh, hleast, hbits⟩ := h
  unfold greatestExponent at he
  rw [pack_finite, if_neg (by omega)]
  by_cases hnormal : 2 ^ 23 ≤ m
  · have hlog : m.log2 = 23 := (Nat.log2_eq_iff hm.ne').mpr ⟨hnormal, hhigh⟩
    have hexponent : (BitVec.ofNat 8 (e + 127 + 23).toNat).toNat = (e + 127 + 23).toNat := by
      rw [BitVec.toNat_ofNat, Nat.mod_eq_of_lt (by omega)]
    have hmantissa : 2 ^ 23 + (BitVec.ofNat 23 m).toNat = m := by
      rw [BitVec.toNat_ofNat]
      omega
    rw [if_pos (by omega), unpack_normal]
    · simp only [hmantissa, hexponent]
      congr 1
      omega
    · intro hzero
      have hvalue : (e + 127 + 23).toNat = 0 := hexponent.symm.trans (congrArg BitVec.toNat hzero)
      omega
    · intro hones
      have hvalue : (e + 127 + 23).toNat = 255 := hexponent.symm.trans (congrArg BitVec.toNat hones)
      omega
  · have hlog : m.log2 < 23 := (Nat.log2_lt hm.ne').mpr (by omega)
    have hmantissa : (BitVec.ofNat 23 m).toNat = m := by
      rw [BitVec.toNat_ofNat, Nat.mod_eq_of_lt (by omega)]
    have hne : BitVec.ofNat 23 m ≠ 0#23 := by
      intro hzero
      have hvalue : m = 0 := hmantissa.symm.trans (congrArg BitVec.toNat hzero)
      omega
    obtain rfl := hbits.resolve_left hnormal
    rw [if_neg (by omega), unpack_subnormal s hne]
    simp only [hmantissa]

theorem unpack_pack_overflow {s : Sign} {m : ℕ} {e : ℤ} {hm : 0 < m} (he : greatestExponent < e) :
    UnpackedFloat.unpack .binary32 (UnpackedFloat.pack .binary32 (.finite s m e hm)) =
      .infinity s := by
  unfold greatestExponent at he
  rw [pack_finite, if_pos (by omega)]
  cases s <;> rfl

theorem unpack_pack_infinity (s : Sign) :
    (Float32.Model.pack (.infinity s)).unpack = .infinity s := by
  cases s <;> rfl

theorem unpack_pack_zero (s : Sign) : (Float32.Model.pack (.zero s)).unpack = .zero s := by
  cases s <;> rfl

/-- Every bit pattern stands for a canonical single. -/
theorem canonical_unpack (b : BitVec 32) : Canonical (UnpackedFloat.unpack .binary32 b) := by
  have hm : (@unpackMantissa .binary32 b).toNat < 2 ^ 23 := (@unpackMantissa .binary32 b).isLt
  have himplicit : (1#1 ++ @unpackMantissa .binary32 b).toNat =
      2 ^ 23 + (@unpackMantissa .binary32 b).toNat := toNat_implicitBit _
  have hbias : Format.binary32.exponentBias = 127 := rfl
  unfold UnpackedFloat.unpack
  dsimp only
  split_ifs with hones hinfinity hleast hzero
  · trivial
  · trivial
  · trivial
  · have he : (@unpackExponent .binary32 b).toNat = 0 := congrArg BitVec.toNat hleast
    simp only [Canonical, hbias]
    omega
  · have he : (@unpackExponent .binary32 b).toNat ≠ 0 := fun h =>
      hleast (BitVec.eq_of_toNat_eq h)
    simp only [Canonical, hbias]
    omega

end HopCodec.Single
