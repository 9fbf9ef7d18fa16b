/-
Rounding to single precision as a function of rationals: the nearest multiple of the last place,
ties to even.  A single has 24 significant bits, and its last place is never below `2 ^ -149`.
-/
import Mathlib.Algebra.Order.Field.Power
import Mathlib.Data.Int.Log
import Mathlib.Data.Rat.Floor
import Mathlib.Data.Sign.Basic
import Mathlib.Tactic.Linarith
import Mathlib.Tactic.Ring

namespace HopCodec.Single

theorem two_zpow_pos (e : ℤ) : (0 : ℚ) < 2 ^ e :=
  zpow_pos (by norm_num) e

/-- The integer nearest to `x`; of two equally near ones the even one. -/
def roundEven (x : ℚ) : ℤ :=
  if x - ⌊x⌋ < 1 / 2 then ⌊x⌋
  else if x - ⌊x⌋ = 1 / 2 then ⌊x⌋ + ⌊x⌋ % 2
  else ⌊x⌋ + 1

theorem roundEven_intCast (n : ℤ) : roundEven n = n := by
  simp [roundEven]

theorem abs_roundEven_sub_le (x : ℚ) : |(roundEven x : ℚ) - x| ≤ 1 / 2 := by
  have hlow := Int.floor_le x
  have hhigh := Int.lt_floor_add_one x
  rw [abs_le]
  unfold roundEven
  split_ifs with hbelow htie
  · constructor <;> linarith
  · have heven : ⌊x⌋ % 2 = 0 ∨ ⌊x⌋ % 2 = 1 := by omega
    rcases heven with hmod | hmod <;> rw [hmod] <;> push_cast <;> constructor <;> linarith
  · have habove : 1 / 2 < x - ⌊x⌋ := lt_of_le_of_ne (not_lt.mp hbelow) (Ne.symm htie)
    push_cast
    constructor <;> linarith

theorem roundEven_le {x : ℚ} {n : ℤ} (h : x ≤ n) : roundEven x ≤ n := by
  have herror := abs_le.mp (abs_roundEven_sub_le x)
  have hlt : (roundEven x : ℚ) < ((n + 1 : ℤ) : ℚ) := by
    push_cast
    linarith
  exact Int.lt_add_one_iff.mp (by exact_mod_cast hlt)

theorem le_roundEven {x : ℚ} {n : ℤ} (h : n ≤ x) : n ≤ roundEven x := by
  have herror := abs_le.mp (abs_roundEven_sub_le x)
  have hlt : (n : ℚ) < ((roundEven x + 1 : ℤ) : ℚ) := by
    push_cast
    linarith
  exact Int.lt_add_one_iff.mp (by exact_mod_cast hlt)

/-- Rounding never more than doubles. -/
theorem roundEven_le_two_mul {x : ℚ} (h : 0 ≤ x) : (roundEven x : ℚ) ≤ 2 * x := by
  rcases le_or_gt (1 / 2) x with hlarge | hsmall
  · have herror := abs_le.mp (abs_roundEven_sub_le x)
    linarith
  · have hfloor : ⌊x⌋ = 0 := Int.floor_eq_iff.mpr ⟨by simpa using h, by push_cast; linarith⟩
    have hzero : roundEven x = 0 := by
      rw [roundEven, hfloor, if_pos (by push_cast; linarith)]
    rw [hzero]
    push_cast
    linarith

/-- The exponent of the last place of a single as large as `x`. -/
def lastPlace (x : ℚ) : ℤ :=
  max (Int.log 2 |x| - 23) (-149)

theorem lastPlace_le {x : ℚ} (hne : x ≠ 0) {k : ℤ} (hk : -149 ≤ k) (hx : |x| < 2 ^ (k + 24)) :
    lastPlace x ≤ k := by
  have hlog : Int.log 2 |x| < k + 24 :=
    (Int.lt_zpow_iff_log_lt (by norm_num) (abs_pos.mpr hne)).mp (by exact_mod_cast hx)
  exact max_le (by omega) hk

/-- A last place above some other is due to the size of the value. -/
theorem le_of_lt_lastPlace {x : ℚ} (hpos : 0 < x) {k : ℤ} (hk : -149 ≤ k) (h : k < lastPlace x) :
    2 ^ (k + 24) ≤ x := by
  by_contra hlt
  have hle := lastPlace_le hpos.ne' hk ((abs_of_pos hpos).trans_lt (not_le.mp hlt))
  omega

/-- The single nearest to the size of `x`, as if there were no largest one. -/
def nearestSize (x : ℚ) : ℚ :=
  roundEven (|x| / 2 ^ lastPlace x) * 2 ^ lastPlace x

theorem nearestSize_nonneg (x : ℚ) : 0 ≤ nearestSize x := by
  have hround : (0 : ℚ) ≤ roundEven (|x| / 2 ^ lastPlace x) := by
    exact_mod_cast le_roundEven (n := 0) (by
      rw [Int.cast_zero]
      exact div_nonneg (abs_nonneg x) (two_zpow_pos _).le)
  exact mul_nonneg hround (two_zpow_pos _).le

theorem nearestSize_le (x : ℚ) : nearestSize x ≤ 2 * |x| := by
  have hunit := two_zpow_pos (lastPlace x)
  calc nearestSize x ≤ 2 * (|x| / 2 ^ lastPlace x) * 2 ^ lastPlace x :=
        mul_le_mul_of_nonneg_right (roundEven_le_two_mul (div_nonneg (abs_nonneg x) hunit.le))
          hunit.le
    _ = 2 * |x| := by rw [mul_assoc, div_mul_cancel₀ _ hunit.ne']

/-- The error of rounding is at most half a unit in the last place. -/
theorem abs_nearestSize_sub_le (x : ℚ) : abs (nearestSize x - |x|) ≤ 2 ^ lastPlace x / 2 := by
  have hunit := two_zpow_pos (lastPlace x)
  have hscale : nearestSize x - |x| =
      (roundEven (|x| / 2 ^ lastPlace x) - |x| / 2 ^ lastPlace x) * 2 ^ lastPlace x := by
    rw [sub_mul, div_mul_cancel₀ _ hunit.ne', nearestSize]
  rw [hscale, abs_mul, abs_of_pos hunit]
  have herror := mul_le_mul_of_nonneg_right (abs_roundEven_sub_le (|x| / 2 ^ lastPlace x)) hunit.le
  linarith

/-- The single nearest to `x`, as if there were no largest one. -/
def nearest (x : ℚ) : ℚ :=
  SignType.sign x * nearestSize x

theorem nearest_zero : nearest 0 = 0 := by
  simp [nearest]

theorem nearest_neg (x : ℚ) : nearest (-x) = -nearest x := by
  simp [nearest, nearestSize, lastPlace, Left.sign_neg]

theorem nearest_of_pos {x : ℚ} (h : 0 < x) : nearest x = nearestSize x := by
  simp [nearest, sign_pos h]

/-- The sign of a value takes no part in its rounding. -/
theorem abs_nearest_eq (x : ℚ) : |nearest x| = nearestSize x := by
  rcases lt_trichotomy x 0 with hneg | rfl | hpos
  · simp [nearest, sign_neg hneg, abs_of_nonneg (nearestSize_nonneg x)]
  · simp [nearest, nearestSize, roundEven]
  · rw [nearest_of_pos hpos, abs_of_nonneg (nearestSize_nonneg x)]

theorem abs_nearest_le (x : ℚ) : |nearest x| ≤ 2 * |x| :=
  (abs_nearest_eq x).trans_le (nearestSize_le x)

theorem nearest_sub (x : ℚ) : nearest x - x = SignType.sign x * (nearestSize x - |x|) := by
  rw [mul_sub, sign_mul_abs]
  rfl

/-- Values below `2 ^ (k + 24)` have their last place at `2 ^ k` or below. -/
theorem abs_nearest_sub_le {x : ℚ} {k : ℤ} (hk : -149 ≤ k) (hx : |x| < 2 ^ (k + 24)) :
    |nearest x - x| ≤ 2 ^ k / 2 := by
  have hunit := two_zpow_pos k
  rcases eq_or_ne x 0 with rfl | hne
  · rw [nearest_zero, sub_zero, abs_zero]
    linarith
  · have hplace : (2 : ℚ) ^ lastPlace x ≤ 2 ^ k :=
      zpow_le_zpow_right₀ (by norm_num) (lastPlace_le hne hk hx)
    have hsign : |((SignType.sign x : SignType) : ℚ)| ≤ 1 := by
      rcases SignType.trichotomy (SignType.sign x) with h | h | h <;> simp [h]
    calc |nearest x - x| ≤ 1 * abs (nearestSize x - |x|) := by
          rw [nearest_sub, abs_mul]
          exact mul_le_mul_of_nonneg_right hsign (abs_nonneg _)
      _ ≤ 2 ^ lastPlace x / 2 := (one_mul _).trans_le (abs_nearestSize_sub_le x)
      _ ≤ 2 ^ k / 2 := by linarith

/-- A value with at most 24 significant bits, none of them below the last place of all. -/
def Representable (x : ℚ) : Prop :=
  ∃ n e : ℤ, |n| < 2 ^ 24 ∧ -149 ≤ e ∧ x = n * 2 ^ e

theorem representable_intCast {n : ℤ} (h : |n| < 2 ^ 24) : Representable n :=
  ⟨n, 0, h, by norm_num, by simp⟩

theorem representable_half {n : ℤ} (h : |n| < 2 ^ 24) : Representable (n / 2) :=
  ⟨n, -1, h, by norm_num, by rw [zpow_neg_one, div_eq_mul_inv]⟩

/-- A value of 24 significant bits ends 24 places above the last of them. -/
theorem abs_lt_of_bits {n : ℤ} (e : ℤ) (hn : |n| < 2 ^ 24) : |(n : ℚ) * 2 ^ e| < 2 ^ (e + 24) := by
  have hcast : |(n : ℚ)| < 2 ^ (24 : ℤ) := by exact_mod_cast hn
  rw [abs_mul, abs_of_pos (two_zpow_pos e), add_comm, zpow_add₀ (by norm_num)]
  exact mul_lt_mul_of_pos_right hcast (two_zpow_pos e)

/-- A multiple of one place is a multiple of every lower one. -/
theorem units_of_le {e p : ℤ} (n : ℤ) (h : p ≤ e) : ∃ k : ℤ, (n : ℚ) * 2 ^ e = k * 2 ^ p := by
  obtain ⟨j, rfl⟩ : ∃ j : ℕ, e = j + p := ⟨(e - p).toNat, by omega⟩
  refine ⟨n * 2 ^ j, ?_⟩
  rw [zpow_add₀ (by norm_num), zpow_natCast]
  push_cast
  ring

/-- Rounding leaves a single as it is. -/
theorem nearest_of_representable {x : ℚ} (h : Representable x) : nearest x = x := by
  obtain ⟨n, e, hn, he, hx⟩ := h
  rcases eq_or_ne x 0 with hzero | hne
  · rw [hzero, nearest_zero]
  have hunit := two_zpow_pos e
  have hsize : |x| = (|n| : ℤ) * 2 ^ e := by rw [hx, abs_mul, abs_of_pos hunit, Int.cast_abs]
  have hplace : lastPlace x ≤ e := by
    refine lastPlace_le hne he ?_
    rw [hx]
    exact abs_lt_of_bits e hn
  obtain ⟨k, hk⟩ := units_of_le |n| hplace
  have hexact : nearestSize x = |x| := by
    rw [nearestSize, hsize, hk, mul_div_cancel_right₀ _ (two_zpow_pos _).ne', roundEven_intCast]
  rw [← sub_eq_zero, nearest_sub, hexact, sub_self, mul_zero]

/-- Rounding does not carry a value below a single that is not above it. -/
theorem le_nearest {l x : ℚ} (hl : Representable l) (hpos : 0 < x) (h : l ≤ x) : l ≤ nearest x := by
  obtain ⟨n, e, hn, he, rfl⟩ := hl
  have hunit := two_zpow_pos (lastPlace x)
  rw [nearest_of_pos hpos, nearestSize, abs_of_pos hpos]
  rcases le_or_gt (lastPlace x) e with hle | hgt
  · obtain ⟨k, hk⟩ := units_of_le n hle
    rw [hk] at h ⊢
    refine mul_le_mul_of_nonneg_right ?_ hunit.le
    exact_mod_cast le_roundEven ((le_div_iff₀ hunit).mpr h)
  · -- the last place of `x` is above that of `l`, and so is its first one
    have hfirst : (2 : ℚ) ^ (23 : ℤ) * 2 ^ lastPlace x ≤ x := by
      have hlarge := le_of_lt_lastPlace hpos (k := lastPlace x - 1) (by omega) (by omega)
      rwa [show lastPlace x - 1 + 24 = 23 + lastPlace x by ring, zpow_add₀ (by norm_num)] at hlarge
    have hbits : (2 ^ 23 : ℤ) ≤ roundEven (x / 2 ^ lastPlace x) :=
      le_roundEven ((le_div_iff₀ hunit).mpr (by exact_mod_cast hfirst))
    have hbits' : (2 : ℚ) ^ (23 : ℤ) ≤ roundEven (x / 2 ^ lastPlace x) := by exact_mod_cast hbits
    calc (n : ℚ) * 2 ^ e ≤ 2 ^ (e + 24) := (abs_lt.mp (abs_lt_of_bits e hn)).2.le
      _ = 2 ^ (23 : ℤ) * 2 ^ (e + 1) := by
          rw [← zpow_add₀ (by norm_num)]
          congr 1
          ring
      _ ≤ roundEven (x / 2 ^ lastPlace x) * 2 ^ lastPlace x :=
          mul_le_mul hbits' (zpow_le_zpow_right₀ (by norm_num) hgt) (two_zpow_pos _).le
            ((two_zpow_pos _).le.trans hbits')

end HopCodec.Single
