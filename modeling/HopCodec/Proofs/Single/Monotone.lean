/-
Rounding to single precision keeps the order of values, so that bounds on the operands of an
operation carry over to what it delivers; and it moves every value that is not tiny by a small part
of itself.
-/
import HopCodec.Proofs.Single.Functions

namespace HopCodec.Single

/-- Half a unit of error on either side is not enough to change places: it would take a tie. -/
theorem roundEven_mono {x y : ℚ} (h : x ≤ y) : roundEven x ≤ roundEven y := by
  by_contra hlt
  have hstep : (roundEven y : ℚ) + 1 ≤ roundEven x := by exact_mod_cast not_le.mp hlt
  have hx := abs_le.mp (abs_roundEven_sub_le x)
  have hy := abs_le.mp (abs_roundEven_sub_le y)
  have heq : x = y := le_antisymm h (by linarith)
  rw [heq] at hstep
  linarith

/-- The first place of a value is at most 23 places above its last one. -/
theorem lt_of_lastPlace {x : ℚ} (hpos : 0 < x) : x < 2 ^ (lastPlace x + 24) := by
  have hfirst : x < 2 ^ (Int.log 2 x + 1) := by
    exact_mod_cast Int.lt_zpow_succ_log_self (b := 2) (by norm_num) x
  have hlast : Int.log 2 x - 23 ≤ lastPlace x := by
    rw [lastPlace, abs_of_pos hpos]
    exact le_max_left _ _
  exact hfirst.trans_le (zpow_le_zpow_right₀ (by norm_num) (by omega))

theorem representable_two_zpow {e : ℤ} (h : -149 ≤ e) : Representable (2 ^ e) :=
  ⟨1, e, by norm_num, h, by rw [Int.cast_one, one_mul]⟩

/-- Rounding does not carry a value above a single that is not below it. -/
theorem nearest_le_of_pos {u x : ℚ} (hu : Representable u) (hpos : 0 < x) (h : x ≤ u) :
    nearest x ≤ u := by
  obtain ⟨n, e, hn, he, rfl⟩ := hu
  have hunit := two_zpow_pos (lastPlace x)
  have hplace : lastPlace x ≤ e := by
    by_contra hgt
    have hlarge := le_of_lt_lastPlace hpos he (not_le.mp hgt)
    have hsmall := (abs_lt.mp (abs_lt_of_bits e hn)).2
    linarith
  obtain ⟨k, hk⟩ := units_of_le n hplace
  rw [nearest_of_pos hpos, nearestSize, abs_of_pos hpos]
  rw [hk] at h ⊢
  refine mul_le_mul_of_nonneg_right ?_ hunit.le
  exact_mod_cast roundEven_le ((div_le_iff₀ hunit).mpr h)

theorem nearest_nonneg {x : ℚ} (h : 0 ≤ x) : 0 ≤ nearest x := by
  rcases h.eq_or_lt with rfl | hpos
  · rw [nearest_zero]
  · rw [nearest_of_pos hpos]
    exact nearestSize_nonneg x

/-- On one side of zero: values with the same last place are rounded to the same multiples, and
between values with different ones there is a power of two. -/
theorem nearest_mono_of_pos {x y : ℚ} (hpos : 0 < x) (h : x ≤ y) : nearest x ≤ nearest y := by
  have hpos' := hpos.trans_le h
  have hplaces : lastPlace x ≤ lastPlace y := by
    unfold lastPlace
    rw [abs_of_pos hpos, abs_of_pos hpos']
    exact max_le_max_right _ (sub_le_sub_right (Int.log_mono_right hpos h) _)
  rcases hplaces.eq_or_lt with heq | hlt
  · have hunit := two_zpow_pos (lastPlace y)
    rw [nearest_of_pos hpos, nearest_of_pos hpos', nearestSize, nearestSize, abs_of_pos hpos,
      abs_of_pos hpos', heq]
    refine mul_le_mul_of_nonneg_right ?_ hunit.le
    exact_mod_cast roundEven_mono (div_le_div_of_nonneg_right h hunit.le)
  · have hleast : -149 ≤ lastPlace x := le_max_right _ _
    have hpower : Representable (2 ^ (lastPlace x + 24)) := representable_two_zpow (by omega)
    calc nearest x ≤ 2 ^ (lastPlace x + 24) :=
          nearest_le_of_pos hpower hpos (lt_of_lastPlace hpos).le
      _ ≤ nearest y := le_nearest hpower hpos' (le_of_lt_lastPlace hpos' hleast hlt)

/-- Rounding keeps the order of values. -/
theorem nearest_mono {x y : ℚ} (h : x ≤ y) : nearest x ≤ nearest y := by
  rcases lt_or_ge 0 x with hpos | hx
  · exact nearest_mono_of_pos hpos h
  have hbelow : nearest x ≤ 0 := by
    have hnonneg := nearest_nonneg (neg_nonneg.mpr hx)
    rwa [nearest_neg, neg_nonneg] at hnonneg
  rcases le_or_gt 0 y with hy | hneg
  · exact hbelow.trans (nearest_nonneg hy)
  · have hmirrored := nearest_mono_of_pos (neg_pos.mpr hneg) (neg_le_neg h)
    rwa [nearest_neg, nearest_neg, neg_le_neg_iff] at hmirrored

namespace Representable

variable {l u x : ℚ}

theorem nearest_le (hu : Representable u) (h : x ≤ u) : nearest x ≤ u :=
  (nearest_mono h).trans_eq (nearest_of_representable hu)

theorem le_nearest (hl : Representable l) (h : l ≤ x) : l ≤ nearest x :=
  (nearest_of_representable hl).symm.trans_le (nearest_mono h)

end Representable

theorem nearest_le_two_pow {x : ℚ} {k : ℕ} (h : x ≤ 2 ^ k) : nearest x ≤ 2 ^ k :=
  (representable_two_zpow (e := k) (by omega)).nearest_le (by exact_mod_cast h)

theorem one_le_nearest {x : ℚ} (h : 1 ≤ x) : 1 ≤ nearest x :=
  (representable_two_zpow (e := 0) (by norm_num)).le_nearest h

/-- Values in the range of full precision are rounded by at most one part in `2 ^ 24`. -/
theorem abs_nearest_sub_le_rel {x : ℚ} (hx : 2 ^ (-126 : ℤ) ≤ x) :
    |nearest x - x| ≤ x / 2 ^ 24 := by
  have hpos : 0 < x := (two_zpow_pos _).trans_le hx
  have hlog : -126 ≤ Int.log 2 x :=
    (Int.zpow_le_iff_le_log (by norm_num) hpos).mp (by exact_mod_cast hx)
  have hfirst : (2 : ℚ) ^ Int.log 2 x ≤ x := by
    exact_mod_cast Int.zpow_log_le_self (b := 2) (by norm_num) hpos
  have hlast : |x| < 2 ^ (Int.log 2 x - 23 + 24) := by
    rw [abs_of_pos hpos, show Int.log 2 x - 23 + 24 = Int.log 2 x + 1 by ring]
    exact_mod_cast Int.lt_zpow_succ_log_self (b := 2) (by norm_num) x
  calc |nearest x - x| ≤ 2 ^ (Int.log 2 x - 23) / 2 := abs_nearest_sub_le (by omega) hlast
    _ = 2 ^ Int.log 2 x / 2 ^ 24 := by
        rw [zpow_sub₀ (by norm_num)]
        norm_num
        ring
    _ ≤ x / 2 ^ 24 := div_le_div_of_nonneg_right hfirst (by norm_num)

/-- A single that stands for a value between zero and `2 ^ k`. -/
structure Bounded (a : Float32) (x : ℚ) (k : ℕ) : Prop where
  denotes : Denotes a x
  nonneg : 0 ≤ x
  le : x ≤ 2 ^ k

theorem Delivers.bounded {a : Float32} {x : ℚ} {k : ℕ} (h : Delivers a x) (hx : 0 ≤ x)
    (hle : x ≤ 2 ^ k) (hk : k < 127) : Bounded a (nearest x) k := by
  have hsmall : |x| < 2 ^ 127 := by
    rw [abs_of_nonneg hx]
    exact hle.trans_lt (pow_lt_pow_right₀ (by norm_num) hk)
  exact ⟨h.denotes hsmall, nearest_nonneg hx, nearest_le_two_pow hle⟩

namespace Bounded

variable {a b : Float32} {x y : ℚ} {j k : ℕ}

theorem add (ha : Bounded a x k) (hb : Bounded b y k) (hk : k < 126) :
    Bounded (a + b) (nearest (x + y)) (k + 1) := by
  have hle : x + y ≤ 2 ^ (k + 1) := by
    rw [pow_succ]
    linarith [ha.le, hb.le]
  exact (ha.denotes.add hb.denotes).bounded (add_nonneg ha.nonneg hb.nonneg) hle (by omega)

theorem mul (ha : Bounded a x j) (hb : Bounded b y k) (hjk : j + k < 127) :
    Bounded (a * b) (nearest (x * y)) (j + k) := by
  have hle : x * y ≤ 2 ^ (j + k) := by
    rw [pow_add]
    exact mul_le_mul ha.le hb.le hb.nonneg (by positivity)
  exact (ha.denotes.mul hb.denotes).bounded (mul_nonneg ha.nonneg hb.nonneg) hle hjk

/-- Dividing by one or more keeps the bound of the dividend. -/
theorem div (ha : Bounded a x j) (hb : Denotes b y) (hy : 1 ≤ y) (hj : j < 127) :
    Bounded (a / b) (nearest (x / y)) j :=
  (ha.denotes.div hb (by linarith)).bounded (div_nonneg ha.nonneg (by linarith))
    ((div_le_self ha.nonneg hy).trans ha.le) hj

theorem one_add (ha : Bounded a x k) (hk : k < 126) :
    Bounded (1.0 + a) (nearest (1 + x)) (k + 1) :=
  add ⟨denotes_one, zero_le_one, one_le_pow₀ (by norm_num)⟩ ha hk

end Bounded

end HopCodec.Single
