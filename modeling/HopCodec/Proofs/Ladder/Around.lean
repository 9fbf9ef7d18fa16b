/-
The order of a ladder, whatever its power function returns.  A growth factor is held between one
and the largest one of its ratio, so no product of singles falls below the one before it, and
rounding and cutting to whole values keep that order.
-/
import HopCodec.Proofs.Ladder.Sweep
import HopCodec.Proofs.Single.Monotone

namespace HopCodec

open Single

namespace Ladder

/-- A growth factor that rungs are spread by. -/
def Widens (factor : Float32) : Prop :=
  ∃ g, Bounded factor g 2 ∧ 1 ≤ g

/-- The largest growth factor of a ratio. -/
theorem exists_denotes_limit {ratio : Nat}
    (hratio : Predictor.ratioMin ≤ ratio ∧ ratio ≤ Predictor.ratioMax) :
    ∃ y, Denotes (ofNat ratio / 10.0) y ∧ 1 ≤ y ∧ y ≤ 4 := by
  obtain ⟨hmin, hmax⟩ := hratio
  simp only [Predictor.ratioMin, Predictor.ratioMax] at hmin hmax
  have hlow : (20 : ℚ) ≤ ratio := by exact_mod_cast hmin
  have hhigh : (ratio : ℚ) ≤ 40 := by exact_mod_cast hmax
  exact ⟨_, denotes_tenth (by omega), one_le_nearest (by linarith),
    (nearest_le_two_pow (k := 2) (by linarith)).trans (by norm_num)⟩

/-- Nothing that a power function returns leads to another growth factor. -/
theorem widens_growth (pow : Power) (room step : Nat) {ratio : Nat}
    (hratio : Predictor.ratioMin ≤ ratio ∧ ratio ≤ Predictor.ratioMax) :
    Widens (growth pow room step (ofNat ratio / 10.0)) := by
  obtain ⟨y, hlimit, hone, hfour⟩ := exists_denotes_limit hratio
  obtain ⟨g, hg, hlow, hhigh⟩ := exists_denotes_held
    (pow (reachShare * ofNat room / ofNat step) reachExponent) denotes_one hlimit hone
  exact ⟨g, ⟨hg, by linarith, by linarith⟩, hlow⟩

/-- The distance of a rung in steps, with the products rounded as they come. -/
def width (g : ℚ) : ℕ → ℚ
  | 0 => 1
  | k + 1 => Single.nearest (width g k * g)

section Width

variable {g : ℚ} {factor : Float32} (hfactor : Bounded factor g 2)

include hfactor

theorem bounded_spread {k : ℕ} (hk : k ≤ 3) : Bounded (spread factor k) (width g k) (2 * k) := by
  induction k with
  | zero => exact ⟨denotes_one, zero_le_one, le_rfl⟩
  | succ k ih => exact (ih (Nat.le_of_succ_le hk)).mul hfactor (by omega)

variable (hg : 1 ≤ g)

include hg

/-- A product that is itself a single cannot be rounded below it. -/
theorem width_le_succ {k : ℕ} (hk : k ≤ 3) : width g k ≤ width g (k + 1) := by
  have hspread := bounded_spread hfactor hk
  exact hspread.denotes.representable.le_nearest (le_mul_of_one_le_right hspread.nonneg hg)

theorem width_le_width {j k : ℕ} (hjk : j ≤ k) (hk : k ≤ 3) : width g j ≤ width g k := by
  induction k, hjk using Nat.le_induction with
  | base => exact le_rfl
  | succ k _ ih =>
      exact (ih (Nat.le_of_succ_le hk)).trans (width_le_succ hfactor hg (Nat.le_of_succ_le hk))

end Width

section Rungs

variable {step : Nat} (hstep : step ≤ 32) {factor : Float32}

include hstep

/-- The single that a rung is cut from. -/
theorem bounded_rung {g : ℚ} (hfactor : Bounded factor g 2) {k : Nat} (hk : k ≤ 3) :
    Bounded (ofNat step * spread factor k) (Single.nearest (step * width g k)) (5 + 2 * k) := by
  have hsteps : Bounded (ofNat step) step 5 :=
    ⟨denotes_ofNat (by omega), Nat.cast_nonneg step, by exact_mod_cast hstep⟩
  exact hsteps.mul (bounded_spread hfactor hk) (by omega)

theorem rung_eq_floor {g : ℚ} (hfactor : Bounded factor g 2) {k : Nat} (hk : k ≤ 3) :
    rung step factor k = ⌊Single.nearest (step * width g k)⌋₊ := by
  have hrung := bounded_rung hstep hfactor hk
  exact hrung.denotes.floorNat_eq
    (hrung.le.trans_lt (pow_lt_pow_right₀ (by norm_num) (by omega)))

/-- The first rung is one step away. -/
theorem rung_zero (factor : Float32) : rung step factor 0 = step := by
  have hproduct : Denotes (ofNat step * spread factor 0) step :=
    ((denotes_ofNat (by omega)).mul denotes_one).exact (mul_one _)
      (denotes_ofNat (by omega)).representable (by
        rw [Nat.abs_cast]
        exact_mod_cast (show step < 2 ^ 127 by omega))
  have hsmall : (step : ℚ) < 2 ^ 64 := by exact_mod_cast (show step < 2 ^ 64 by omega)
  rw [rung, hproduct.floorNat_eq hsmall, Nat.floor_natCast]

theorem rung_le_rung (h : Widens factor) {j k : Nat} (hjk : j ≤ k) (hk : k ≤ 3) :
    rung step factor j ≤ rung step factor k := by
  obtain ⟨g, hfactor, hg⟩ := h
  rw [rung_eq_floor hstep hfactor (hjk.trans hk), rung_eq_floor hstep hfactor hk]
  exact Nat.floor_mono (nearest_mono (mul_le_mul_of_nonneg_left
    (width_le_width hfactor hg hjk hk) (Nat.cast_nonneg step)))

end Rungs

theorem toValue_le_toValue {m n : Nat} (h : m ≤ n) : toValue m ≤ toValue n := by
  rw [UInt8.le_iff_toNat_le, toNat_toValue, toNat_toValue]
  omega

/-- No rung of a ladder is at zero. -/
theorem one_le_around (pow : Power) (ratio step : Nat) (predicted : UInt8) (hop : Hop) :
    1 ≤ around pow ratio step predicted hop := by
  have hvalue (n : Nat) : 1 ≤ toValue n := by
    rw [UInt8.le_iff_toNat_le, toNat_toValue, UInt8.toNat_one]
    omega
  unfold around
  rw [HopMap.get_ofFn]
  split
  · exact hvalue _
  · split <;> exact hvalue _

/-- The null hop keeps every prediction but zero. -/
theorem toValue_eq_max (v : UInt8) : toValue v.toNat = max v 1 := by
  have hvalue := v.toNat_lt
  apply UInt8.toNat_inj.mp
  rw [toNat_toValue, show max v 1 = if v ≤ 1 then 1 else v from rfl]
  split
  · next h =>
      have hle : v.toNat ≤ 1 := UInt8.le_iff_toNat_le.mp h
      rw [UInt8.toNat_one]
      omega
  · next h =>
      have hlt : ¬ v.toNat ≤ 1 := fun hle => h (UInt8.le_iff_toNat_le.mpr hle)
      omega

section Around

variable (pow : Power) (ratio step : Nat) (predicted : UInt8)

theorem around_above {hop : Hop} (h : 4 < hop.index.val) :
    around pow ratio step predicted hop = toValue (predicted.toNat +
      rung step (growth pow (255 - predicted.toNat) step (ofNat ratio / 10.0))
        (hop.index - 5)) := by
  have hplace : hop.magnitude - 1 = hop.index.val - 5 := by
    rw [Hop.magnitude]
    omega
  have hnull : hop ≠ .null := by
    rintro rfl
    exact absurd h (by decide)
  rw [around, HopMap.get_ofFn, if_neg hnull, if_pos (show Hop.null.index < hop.index from h),
    hplace]

theorem around_below {hop : Hop} (h : hop.index.val < 4) :
    around pow ratio step predicted hop = toValue (predicted.toNat -
      rung step (growth pow predicted.toNat step (ofNat ratio / 10.0)) (3 - hop.index)) := by
  have hplace : hop.magnitude - 1 = 3 - hop.index.val := by
    rw [Hop.magnitude]
    omega
  have hnull : hop ≠ .null := by
    rintro rfl
    exact absurd h (by decide)
  have hbelow : ¬ Hop.null.index < hop.index := fun hlt => absurd h (Nat.not_lt.mpr hlt.le)
  rw [around, HopMap.get_ofFn, if_neg hnull, if_neg hbelow, hplace]

end Around

/-- Ladders never descend, whatever the power function. -/
theorem ordered_around (pow : Power) {ratio step : Nat} (predicted : UInt8)
    (hratio : Predictor.ratioMin ≤ ratio ∧ ratio ≤ Predictor.ratioMax) (hstep : step ≤ 32) :
    (around pow ratio step predicted).Ordered := by
  have hup := widens_growth pow (255 - predicted.toNat) step hratio
  have hdown := widens_growth pow predicted.toNat step hratio
  have hnull {hop : Hop} (h : hop.index.val = 4) :
      around pow ratio step predicted hop = toValue predicted.toNat := by
    rw [Hop.index_injective (h := .null) (Fin.ext h), around_null]
  intro g h hle
  have hle : g.index.val ≤ h.index.val := hle
  have hlast := h.index.isLt
  rcases lt_trichotomy g.index.val 4 with hg | hg | hg <;>
    rcases lt_trichotomy h.index.val 4 with hh | hh | hh
  case inl.inl =>
    rw [around_below _ _ _ _ hg, around_below _ _ _ _ hh]
    exact toValue_le_toValue
      (Nat.sub_le_sub_left (rung_le_rung hstep hdown (by omega) (by omega)) _)
  case inl.inr.inl =>
    rw [around_below _ _ _ _ hg, hnull hh]
    exact toValue_le_toValue (Nat.sub_le _ _)
  case inl.inr.inr =>
    rw [around_below _ _ _ _ hg, around_above _ _ _ _ hh]
    exact toValue_le_toValue ((Nat.sub_le _ _).trans (Nat.le_add_right _ _))
  case inr.inl.inr.inl =>
    rw [hnull hg, hnull hh]
    exact UInt8.le_refl _
  case inr.inl.inr.inr =>
    rw [hnull hg, around_above _ _ _ _ hh]
    exact toValue_le_toValue (Nat.le_add_right _ _)
  case inr.inr.inr.inr =>
    rw [around_above _ _ _ _ hg, around_above _ _ _ _ hh]
    exact toValue_le_toValue
      (Nat.add_le_add_left (rung_le_rung hstep hup (by omega) (by omega)) _)
  all_goals omega

end Ladder

/-- The tables of the codec are made by sweeping ordered ladders, whatever the power function. -/
theorem Tables.swept_build (pow : Power) : (Tables.build pow).Swept := by
  intro ratio step predicted hmin hmax _ hstep
  have hstep : step ≤ 32 := (Nat.le_of_lt hstep).trans (by decide)
  rw [build_ladder]
  exact ⟨Ladder.ordered_around pow predicted ⟨hmin, hmax⟩ hstep, fun target =>
    build_nearest pow ratio step target predicted⟩

end HopCodec
