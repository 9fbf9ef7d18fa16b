/-
Counting roundings.  Two positive values are close if they differ by at most the factor that a given
number of roundings can bring about; the counts of the operands of an operation add up, and its own
rounding counts once.
-/
import HopCodec.Proofs.Single.Monotone

namespace HopCodec.Single

/-- More than the factor by which one rounding changes a value of full precision. -/
def grain : ℚ :=
  1 + 1 / 2 ^ 23

theorem grain_pos : 0 < grain := by
  norm_num [grain]

theorem one_le_grain_pow (n : ℕ) : 1 ≤ grain ^ n :=
  one_le_pow₀ (by norm_num [grain])

theorem grain_pow_mono {m n : ℕ} (h : m ≤ n) : grain ^ m ≤ grain ^ n :=
  pow_le_pow_right₀ (by norm_num [grain]) h

/-- Positive values that are at most `n` roundings apart. -/
structure Close (n : ℕ) (x y : ℚ) : Prop where
  pos : 0 < x
  le : x ≤ grain ^ n * y
  ge : y ≤ grain ^ n * x

namespace Close

variable {m n : ℕ} {x y z w : ℚ}

theorem refl (h : 0 < x) : Close 0 x x :=
  ⟨h, by simp, by simp⟩

theorem pos_right (h : Close n x y) : 0 < y := by
  by_contra hneg
  have hle := mul_nonpos_of_nonneg_of_nonpos (pow_pos grain_pos n).le (not_lt.mp hneg)
  linarith [h.pos, h.le]

theorem mono (h : Close m x y) (hmn : m ≤ n) : Close n x y :=
  ⟨h.pos, h.le.trans (mul_le_mul_of_nonneg_right (grain_pow_mono hmn) h.pos_right.le),
    h.ge.trans (mul_le_mul_of_nonneg_right (grain_pow_mono hmn) h.pos.le)⟩

theorem trans (h : Close m x y) (h' : Close n y z) : Close (m + n) x z := by
  refine ⟨h.pos, ?_, ?_⟩
  · calc x ≤ grain ^ m * y := h.le
      _ ≤ grain ^ m * (grain ^ n * z) := mul_le_mul_of_nonneg_left h'.le (pow_pos grain_pos m).le
      _ = grain ^ (m + n) * z := by rw [pow_add, mul_assoc]
  · calc z ≤ grain ^ n * y := h'.ge
      _ ≤ grain ^ n * (grain ^ m * x) := mul_le_mul_of_nonneg_left h.ge (pow_pos grain_pos n).le
      _ = grain ^ (m + n) * x := by rw [pow_add, mul_left_comm, mul_assoc]

theorem mul (h : Close m x y) (h' : Close n z w) : Close (m + n) (x * z) (y * w) := by
  have hm := (pow_pos grain_pos m).le
  refine ⟨mul_pos h.pos h'.pos, ?_, ?_⟩
  · calc x * z ≤ (grain ^ m * y) * (grain ^ n * w) :=
          mul_le_mul h.le h'.le h'.pos.le (mul_nonneg hm h.pos_right.le)
      _ = grain ^ (m + n) * (y * w) := by ring
  · calc y * w ≤ (grain ^ m * x) * (grain ^ n * z) :=
          mul_le_mul h.ge h'.ge h'.pos_right.le (mul_nonneg hm h.pos.le)
      _ = grain ^ (m + n) * (x * z) := by ring

theorem inv (h : Close n x y) : Close n x⁻¹ y⁻¹ := by
  have hx := h.pos
  have hy := h.pos_right
  refine ⟨inv_pos.mpr hx, ?_, ?_⟩
  · rw [← div_eq_mul_inv, inv_eq_one_div, div_le_div_iff₀ hx hy, one_mul]
    exact h.ge
  · rw [← div_eq_mul_inv, inv_eq_one_div, div_le_div_iff₀ hy hx, one_mul]
    exact h.le

theorem div (h : Close m x y) (h' : Close n z w) : Close (m + n) (x / z) (y / w) := by
  rw [div_eq_mul_inv, div_eq_mul_inv]
  exact h.mul h'.inv

theorem add (h : Close n x y) (h' : Close n z w) : Close n (x + z) (y + w) :=
  ⟨add_pos h.pos h'.pos, (add_le_add h.le h'.le).trans_eq (mul_add _ _ _).symm,
    (add_le_add h.ge h'.ge).trans_eq (mul_add _ _ _).symm⟩

/-- Bounds that apply to both of two values do not drive them apart. -/
theorem max (h : Close n x y) (hz : 0 < z) : Close n (max z x) (max z y) := by
  have hgrow : z ≤ grain ^ n * z := le_mul_of_one_le_left hz.le (one_le_grain_pow n)
  have hnonneg := (pow_pos grain_pos n).le
  refine ⟨hz.trans_le (le_max_left _ _), ?_, ?_⟩
  · rw [mul_max_of_nonneg _ _ hnonneg]
    exact max_le_max hgrow h.le
  · rw [mul_max_of_nonneg _ _ hnonneg]
    exact max_le_max hgrow h.ge

theorem min (h : Close n x y) (hz : 0 < z) : Close n (min x z) (min y z) := by
  have hgrow : z ≤ grain ^ n * z := le_mul_of_one_le_left hz.le (one_le_grain_pow n)
  have hnonneg := (pow_pos grain_pos n).le
  refine ⟨lt_min h.pos hz, ?_, ?_⟩
  · rw [mul_min_of_nonneg _ _ hnonneg]
    exact min_le_min h.le hgrow
  · rw [mul_min_of_nonneg _ _ hnonneg]
    exact min_le_min h.ge hgrow

/-- A bound that is exceeded by rounding alone does not matter. -/
theorem min_left (hx : 0 < x) (hz : 0 < z) (h : x ≤ grain ^ n * z) :
    Close n (Min.min x z) x := by
  have hgrow : x ≤ grain ^ n * x := le_mul_of_one_le_left hx.le (one_le_grain_pow n)
  refine ⟨lt_min hx hz, (min_le_left x z).trans hgrow, ?_⟩
  rw [mul_min_of_nonneg _ _ (pow_pos grain_pos n).le]
  exact le_min hgrow h

theorem abs_sub_le (h : Close n x y) : |x - y| ≤ (grain ^ n - 1) * y := by
  have hy := h.pos_right
  have hgap : 0 ≤ (grain ^ n - 1) * y := mul_nonneg (sub_nonneg.mpr (one_le_grain_pow n)) hy.le
  rw [abs_le]
  constructor
  · rcases le_total x y with hxy | hyx
    · have hsmaller := mul_le_mul_of_nonneg_left hxy (sub_nonneg.mpr (one_le_grain_pow n))
      linarith [h.ge]
    · linarith
  · linarith [h.le]

end Close

theorem close_nearest {x : ℚ} (hx : 2 ^ (-126 : ℤ) ≤ x) : Close 1 (nearest x) x := by
  have hpos : 0 < x := (two_zpow_pos _).trans_le hx
  obtain ⟨hlow, hhigh⟩ := abs_le.mp (abs_nearest_sub_le_rel hx)
  refine ⟨by linarith, ?_, ?_⟩ <;> rw [pow_one, grain] <;> linarith

/-- A single that stands for a positive value at most `n` roundings away from `x`. -/
def Approximates (a : Float32) (n : ℕ) (x : ℚ) : Prop :=
  ∃ y, Denotes a y ∧ Close n y x

theorem Denotes.approximates {a : Float32} {x : ℚ} (h : Denotes a x) (hx : 0 < x) :
    Approximates a 0 x :=
  ⟨x, h, .refl hx⟩

/-- Far from the smallest and the largest singles. -/
structure Moderate (x : ℚ) : Prop where
  low : 1 / 2 ^ 100 ≤ x
  high : x ≤ 2 ^ 100

/-- A moderate result is rounded once more. -/
theorem Delivers.approximates {a : Float32} {x y : ℚ} {n : ℕ} (h : Delivers a y) (hy : Close n y x)
    (hx : Moderate x) (hn : n ≤ 100) : Approximates a (n + 1) x := by
  have hgrain : grain ^ n ≤ 2 := (grain_pow_mono hn).trans (by norm_num [grain])
  have hle : y ≤ 2 * x := hy.le.trans (mul_le_mul_of_nonneg_right hgrain hy.pos_right.le)
  have hge : x ≤ 2 * y := hy.ge.trans (mul_le_mul_of_nonneg_right hgrain hy.pos.le)
  have hnormal : (2 : ℚ) ^ (-126 : ℤ) ≤ y :=
    calc (2 : ℚ) ^ (-126 : ℤ) ≤ 1 / 2 ^ 100 / 2 := by norm_num
      _ ≤ y := by linarith [hx.low]
  have hsmall : |y| < 2 ^ 127 := by
    rw [abs_of_pos hy.pos]
    linarith [hx.high]
  refine ⟨nearest y, h.denotes hsmall, ?_⟩
  rw [add_comm]
  exact (close_nearest hnormal).trans hy

namespace Approximates

variable {a b : Float32} {m n : ℕ} {x y : ℚ}

theorem mono (h : Approximates a m x) (hmn : m ≤ n) : Approximates a n x := by
  obtain ⟨v, hv, hclose⟩ := h
  exact ⟨v, hv, hclose.mono hmn⟩

theorem trans (h : Approximates a m x) (hclose : Close n x y) : Approximates a (m + n) y := by
  obtain ⟨v, hv, hclose'⟩ := h
  exact ⟨v, hv, hclose'.trans hclose⟩

theorem add (ha : Approximates a n x) (hb : Approximates b n y) (hxy : Moderate (x + y))
    (hn : n ≤ 100) : Approximates (a + b) (n + 1) (x + y) := by
  obtain ⟨v, hv, hclose⟩ := ha
  obtain ⟨w, hw, hclose'⟩ := hb
  exact (hv.add hw).approximates (hclose.add hclose') hxy hn

theorem mul (ha : Approximates a m x) (hb : Approximates b n y) (hxy : Moderate (x * y))
    (hmn : m + n ≤ 100) : Approximates (a * b) (m + n + 1) (x * y) := by
  obtain ⟨v, hv, hclose⟩ := ha
  obtain ⟨w, hw, hclose'⟩ := hb
  exact (hv.mul hw).approximates (hclose.mul hclose') hxy hmn

theorem div (ha : Approximates a m x) (hb : Approximates b n y) (hxy : Moderate (x / y))
    (hmn : m + n ≤ 100) : Approximates (a / b) (m + n + 1) (x / y) := by
  obtain ⟨v, hv, hclose⟩ := ha
  obtain ⟨w, hw, hclose'⟩ := hb
  exact (hv.div hw hclose'.pos.ne').approximates (hclose.div hclose') hxy hmn

/-- Both bounds of a clamp apply to the value that is approximated as well. -/
theorem clamp {lo hi : Float32} {l u : ℚ} (ha : Approximates a n x) (hlo : Denotes lo l)
    (hhi : Denotes hi u) (hl : 0 < l) (hlu : l ≤ u) :
    Approximates (clamp a lo hi) n (max l (min x u)) := by
  obtain ⟨v, hv, hclose⟩ := ha
  exact ⟨_, hv.clamp hlo hhi hlu, (hclose.min (hl.trans_le hlu)).max hl⟩

end Approximates

end HopCodec.Single
