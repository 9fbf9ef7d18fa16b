/-
Singles taken apart into sign, mantissa and exponent.  The bit-level rounding of their mantissas,
with its round and sticky bits, is the rounding of the rationals that they stand for.
-/
import Mathlib
import HopCodec.Proofs.Single.Rounding

namespace HopCodec.Single

open Float.Model Float.Model.UnpackedFloat

def signed (s : Sign) (x : ℚ) : ℚ :=
  match s with
  | .negative => -x
  | .positive => x

/-- The rational that an unpacked single stands for. -/
def value? : UnpackedFloat → Option ℚ
  | .zero _ => some 0
  | .finite s m e _ => some (signed s (m * 2 ^ e))
  | _ => none

/-- The mantissa has 24 bits, or as many as the least exponent of all leaves. -/
def Canonical : UnpackedFloat → Prop
  | .finite _ m e _ => m < 2 ^ 24 ∧ -149 ≤ e ∧ (2 ^ 23 ≤ m ∨ e = -149)
  | _ => True

/-- What the round bit and the sticky bit say about a fraction. -/
def Located (roundBit stickyBit : Bool) (r : ℚ) : Prop :=
  match roundBit, stickyBit with
  | false, false => r = 0
  | false, true => 0 < r ∧ r < 1 / 2
  | true, false => r = 1 / 2
  | true, true => 1 / 2 < r ∧ r < 1

/-- Under one more bit the round bit and the sticky bit become one sticky bit. -/
theorem Located.below {roundBit stickyBit : Bool} {r : ℚ} (h : Located roundBit stickyBit r)
    (bit : Bool) : Located bit (roundBit || stickyBit) ((r + bit.toNat) / 2) := by
  cases bit <;> cases roundBit <;> cases stickyBit <;>
    simp only [Located, Bool.or_false, Bool.or_true, Bool.toNat_false, Bool.toNat_true,
      Nat.cast_zero, Nat.cast_one] at h ⊢ <;>
    first | linarith | exact ⟨by linarith, by linarith⟩

/-- A mantissa with its residual bits stands for `x`, as far as rounding is concerned. -/
def Represents (em : ExtendedMantissa) (x : ℚ) : Prop :=
  Located em.roundBit em.stickyBit (x - em.mantissa)

theorem represents_exact (m : ℕ) : Represents (.ofMantissaAndAccuracy m .exact) m := by
  simp [Represents, Located, ExtendedMantissa.ofMantissaAndAccuracy]

namespace Represents

variable {em : ExtendedMantissa} {x : ℚ}

theorem bounds (h : Represents em x) : (em.mantissa : ℚ) ≤ x ∧ x < em.mantissa + 1 := by
  obtain ⟨m, r, s⟩ := em
  cases r <;> cases s <;> simp only [Represents, Located] at h ⊢ <;> constructor <;> linarith

theorem floor (h : Represents em x) : ⌊x⌋ = (em.mantissa : ℤ) :=
  Int.floor_eq_iff.mpr (by exact_mod_cast h.bounds)

theorem rounded (h : Represents em x) : (em.roundedMantissa : ℤ) = roundEven x := by
  have hfloor := h.floor
  obtain ⟨m, r, s⟩ := em
  rw [roundEven, hfloor]
  cases r <;> cases s <;>
    simp only [Represents, Located, ExtendedMantissa.roundedMantissa, ExtendedMantissa.accuracy,
      Accuracy.roundToNearestEven] at h ⊢
  · rw [if_pos (by push_cast; linarith)]
  · rw [if_pos (by push_cast; exact h.2)]
  · rw [if_neg (by push_cast; linarith), if_pos (by push_cast; exact h)]
    push_cast
    rfl
  · rw [if_neg (by push_cast; linarith), if_neg (by push_cast; linarith)]
    push_cast
    rfl

/-- The bit that a shift drops becomes the round bit, and the round bit sticks. -/
theorem shiftRightOne (h : Represents em x) : Represents em.shiftRightOne (x / 2) := by
  have hbit : (em.mantissa % 2 != 0).toNat = em.mantissa % 2 := by
    rcases Nat.mod_two_eq_zero_or_one em.mantissa with hparity | hparity <;> rw [hparity] <;> rfl
  have hparts : (em.mantissa : ℚ) =
      2 * ((em.mantissa / 2 : ℕ) : ℚ) + ((em.mantissa % 2 : ℕ) : ℚ) := by
    exact_mod_cast (Nat.div_add_mod em.mantissa 2).symm
  have hfraction : x / 2 - ((em.mantissa / 2 : ℕ) : ℚ) =
      (x - em.mantissa + ((em.mantissa % 2 != 0).toNat : ℚ)) / 2 := by
    rw [hbit, hparts]
    ring
  have hbelow := Located.below h (em.mantissa % 2 != 0)
  rwa [← hfraction] at hbelow

theorem shiftRight (h : Represents em x) (n : ℕ) : Represents (em >>> n) (x / 2 ^ n) := by
  show Represents (n.repeat ExtendedMantissa.shiftRightOne em) (x / 2 ^ n)
  induction n with
  | zero => simpa [Nat.repeat] using h
  | succ n ih =>
      rw [pow_succ, ← div_div]
      exact ih.shiftRightOne

end Represents

theorem totalExponent_bounds {m : ℕ} (hm : 0 < m) {x : ℚ} (hlow : (m : ℚ) ≤ x) (hhigh : x < m + 1) :
    (2 : ℚ) ^ m.log2 ≤ x ∧ x < 2 ^ (m.log2 + 1) := by
  have hpow : 2 ^ m.log2 ≤ m := Nat.log2_self_le hm.ne'
  have hnext : m + 1 ≤ 2 ^ (m.log2 + 1) := Nat.lt_log2_self
  constructor
  · exact le_trans (by exact_mod_cast hpow) hlow
  · exact lt_of_lt_of_le hhigh (by exact_mod_cast hnext)

/-- The exponent that a format wants is the last place of the value, also where the mantissa is the
value cut off. -/
theorem targetExponent_eq {m : ℕ} {e : ℤ} {x : ℚ} (hlow : (m : ℚ) ≤ x) (hhigh : x < m + 1)
    (hpos : 0 < x) (hbits : 2 ^ 23 ≤ m ∨ e ≤ -149) :
    Format.binary32.targetExponent (totalExponent m e) = lastPlace (x * 2 ^ e) := by
  have hunit := two_zpow_pos e
  have htarget : Format.binary32.targetExponent (totalExponent m e) =
      max ((m.log2 : ℤ) + 1 + e - 24) (-149) := rfl
  rw [htarget, lastPlace, abs_of_pos (mul_pos hpos hunit)]
  rcases m.eq_zero_or_pos with rfl | hm
  · have hsmall : x * 2 ^ e < 2 ^ e := by
      rw [Nat.cast_zero, zero_add] at hhigh
      exact mul_lt_of_lt_one_left hunit hhigh
    have hlog : Int.log 2 (x * 2 ^ e) < e :=
      (Int.lt_zpow_iff_log_lt (by norm_num) (mul_pos hpos hunit)).mp (by exact_mod_cast hsmall)
    have hzero : Nat.log2 0 = 0 := rfl
    omega
  · obtain ⟨hfrom, hbelow⟩ := totalExponent_bounds hm hlow hhigh
    have hscaled : ∀ k : ℕ, (2 : ℚ) ^ ((k : ℤ) + e) = 2 ^ k * 2 ^ e := fun k => by
      rw [zpow_add₀ (by norm_num), zpow_natCast]
    have hle : (m.log2 : ℤ) + e ≤ Int.log 2 (x * 2 ^ e) := by
      refine (Int.zpow_le_iff_le_log (by norm_num) (mul_pos hpos hunit)).mp ?_
      push_cast
      rw [hscaled]
      exact mul_le_mul_of_nonneg_right hfrom hunit.le
    have hlt : Int.log 2 (x * 2 ^ e) < ((m.log2 + 1 : ℕ) : ℤ) + e := by
      refine (Int.lt_zpow_iff_log_lt (by norm_num) (mul_pos hpos hunit)).mp ?_
      rw [Nat.cast_ofNat, hscaled]
      exact mul_lt_mul_of_pos_right hbelow hunit
    push_cast at hlt
    omega

/-- An unpacked single is the rounded `x`, unless it lies beyond the largest single. -/
structure RoundsTo (x : ℚ) (u : UnpackedFloat) : Prop where
  canonical : Canonical u
  value : value? u = some (nearest x)

theorem nearest_signed (s : Sign) {x : ℚ} (h : 0 < x) :
    nearest (signed s x) = signed s (nearestSize x) := by
  cases s
  · rw [signed, nearest_neg, nearest_of_pos h]
    rfl
  · exact nearest_of_pos h

theorem shiftToExponent_of_le {m : ℕ} {e t : ℤ} {a : Accuracy} (h : e ≤ t) :
    shiftToExponent m e a t =
      (ExtendedMantissa.ofMantissaAndAccuracy m a >>> (t - e).toNat, t) := by
  simp only [shiftToExponent, Prod.mk.injEq, true_and]
  omega

theorem shiftToExponent_of_ge {m : ℕ} {e t : ℤ} {a : Accuracy} (h : t ≤ e) :
    shiftToExponent m e a t = (ExtendedMantissa.ofMantissaAndAccuracy m a, e) := by
  have hzero : (t - e).toNat = 0 := by omega
  simp only [shiftToExponent, hzero, Nat.cast_zero, add_zero]
  rfl

/-- The second shift: a mantissa that rounding has carried to 25 bits loses a zero. -/
theorem shiftToTargetExponent_rounded {n : ℕ} {t : ℤ} (hn : n ≤ 2 ^ 24) (ht : -149 ≤ t)
    (hbits : 2 ^ 23 ≤ n ∨ t = -149) : ∃ em e, shiftToTargetExponent .binary32 n t .exact = (em, e) ∧
      (em.mantissa : ℚ) * 2 ^ e = n * 2 ^ t ∧ em.mantissa < 2 ^ 24 ∧ -149 ≤ e ∧
      (2 ^ 23 ≤ em.mantissa ∨ e = -149) := by
  have htarget : Format.binary32.targetExponent (totalExponent n t) =
      max ((n.log2 : ℤ) + 1 + t - 24) (-149) := rfl
  unfold shiftToTargetExponent
  rcases hn.lt_or_eq with hlt | rfl
  · have hlog : n.log2 < 24 := by
      rcases n.eq_zero_or_pos with rfl | hpos
      · decide
      · exact (Nat.log2_lt hpos.ne').mpr hlt
    rw [shiftToExponent_of_ge (by omega)]
    exact ⟨_, _, rfl, rfl, hlt, ht, hbits⟩
  · have hlog : Nat.log2 (2 ^ 24) = 24 := Nat.log2_two_pow
    have hone : Format.binary32.targetExponent (totalExponent (2 ^ 24) t) = t + 1 := by
      rw [htarget, hlog]
      omega
    rw [hone, shiftToExponent_of_le (by omega), show (t + 1 - t).toNat = 1 by omega]
    refine ⟨_, _, rfl, ?_, by decide, by omega, .inl (by decide)⟩
    have hhalf : ((ExtendedMantissa.ofMantissaAndAccuracy (2 ^ 24) .exact >>> 1).mantissa : ℚ) =
        2 ^ 23 := by
      have hmantissa : (ExtendedMantissa.ofMantissaAndAccuracy (2 ^ 24) .exact >>> 1).mantissa =
          2 ^ 23 := by decide
      rw [hmantissa]
      norm_num
    rw [hhalf, zpow_add₀ (by norm_num)]
    norm_num
    ring

/-- The first shift leaves 24 bits, but for the least exponent. -/
theorem roundEven_shifted {m k : ℕ} {e : ℤ} {x : ℚ} (hlow : (m : ℚ) ≤ x) (hhigh : x < m + 1)
    (hk : max ((m.log2 : ℤ) + 1 + e - 24) (-149) = e + k) :
    roundEven (x / 2 ^ k) ≤ 2 ^ 24 ∧ (2 ^ 23 ≤ roundEven (x / 2 ^ k) ∨ e + k = -149) := by
  constructor
  · have hnext : m + 1 ≤ 2 ^ (m.log2 + 1) := Nat.lt_log2_self
    have hpow : 2 ^ (m.log2 + 1) ≤ 2 ^ (24 + k) := Nat.pow_le_pow_right (by norm_num) (by omega)
    have hcast : ((m + 1 : ℕ) : ℚ) ≤ ((2 ^ (24 + k) : ℕ) : ℚ) := by
      exact_mod_cast hnext.trans hpow
    refine roundEven_le ?_
    rw [div_le_iff₀ (by positivity)]
    push_cast [pow_add] at hcast ⊢
    linarith
  · rcases eq_or_ne (e + k) (-149) with hleast | hmore
    · exact .inr hleast
    · have hm : 0 < m := by
        by_contra hzero
        obtain rfl : m = 0 := by omega
        have hlogzero : Nat.log2 0 = 0 := rfl
        omega
      have hfrom := (totalExponent_bounds hm hlow hhigh).1
      rw [show m.log2 = 23 + k by omega, pow_add] at hfrom
      refine .inl (le_roundEven ?_)
      rw [le_div_iff₀ (by positivity)]
      exact_mod_cast hfrom

/-- Rounding at the last place of a scaled value. -/
theorem nearestSize_scaled {x : ℚ} {e : ℤ} {k : ℕ} (hpos : 0 < x)
    (hk : lastPlace (x * 2 ^ e) = e + k) :
    nearestSize (x * 2 ^ e) = roundEven (x / 2 ^ k) * 2 ^ lastPlace (x * 2 ^ e) := by
  have hunit := two_zpow_pos e
  have hscaled : |x * 2 ^ e| / 2 ^ lastPlace (x * 2 ^ e) = x / 2 ^ k := by
    rw [abs_of_pos (mul_pos hpos hunit), hk, zpow_add₀ (by norm_num), zpow_natCast, mul_comm x,
      mul_div_mul_left _ _ hunit.ne']
  rw [nearestSize, hscaled]

/-- Rounding an unpacked float rounds the rational, given a mantissa of at least 24 bits or an
exponent below all last places. -/
theorem roundsTo_roundWithAccuracy {s : Sign} {m : ℕ} {e : ℤ} {a : Accuracy} {x : ℚ}
    (h : Represents (.ofMantissaAndAccuracy m a) x) (hpos : 0 < x)
    (hbits : 2 ^ 23 ≤ m ∨ e ≤ -149) :
    RoundsTo (signed s (x * 2 ^ e)) (roundWithAccuracy .binary32 s m e a) := by
  obtain ⟨hlow, hhigh⟩ : (m : ℚ) ≤ x ∧ x < m + 1 := by
    have hbounds := h.bounds
    cases a with
    | exact => exact hbounds
    | inexact o => cases o <;> exact hbounds
  have hplace := targetExponent_eq hlow hhigh hpos hbits
  have htarget : Format.binary32.targetExponent (totalExponent m e) =
      max ((m.log2 : ℤ) + 1 + e - 24) (-149) := rfl
  have hlog : 2 ^ 23 ≤ m → 23 ≤ m.log2 := fun hle =>
    (Nat.le_log2 (by omega)).mpr hle
  have hle : e ≤ lastPlace (x * 2 ^ e) := by omega
  obtain ⟨k, hk⟩ : ∃ k : ℕ, lastPlace (x * 2 ^ e) = e + k :=
    ⟨(lastPlace (x * 2 ^ e) - e).toNat, by omega⟩
  have hfirst : shiftToTargetExponent .binary32 m e a =
      (ExtendedMantissa.ofMantissaAndAccuracy m a >>> k, lastPlace (x * 2 ^ e)) := by
    rw [shiftToTargetExponent, hplace, shiftToExponent_of_le hle,
      show (lastPlace (x * 2 ^ e) - e).toNat = k by omega]
  have hrounded := (h.shiftRight k).rounded
  obtain ⟨hupper, hlower⟩ := roundEven_shifted hlow hhigh (htarget.symm.trans (hplace.trans hk))
  generalize hn : (ExtendedMantissa.ofMantissaAndAccuracy m a >>> k).roundedMantissa = n at hrounded
  obtain ⟨em, e', hsecond, hvalue, hcanonical⟩ :=
    shiftToTargetExponent_rounded (n := n) (t := lastPlace (x * 2 ^ e)) (by omega) (by omega)
      (by omega)
  have hsize : (em.mantissa : ℚ) * 2 ^ e' = nearestSize (x * 2 ^ e) := by
    rw [hvalue, nearestSize_scaled hpos hk, ← hrounded, Int.cast_natCast]
  have hproduct := mul_pos hpos (two_zpow_pos e)
  simp only [roundWithAccuracy, hfirst, hn, hsecond]
  by_cases hzero : em.mantissa = 0
  · rw [dif_pos hzero]
    refine ⟨trivial, ?_⟩
    rw [hzero, Nat.cast_zero, zero_mul] at hsize
    rw [value?, nearest_signed s hproduct, ← hsize]
    cases s <;> simp [signed]
  · rw [dif_neg hzero]
    refine ⟨hcanonical, ?_⟩
    rw [value?, nearest_signed s hproduct, hsize]

/-- Decreasing an exponent only appends zeros to the mantissa. -/
theorem decreaseExponent_eq (m : ℕ) (e t : ℤ) :
    ∃ k : ℕ, decreaseExponent m e t = (m * 2 ^ k, e - k) ∧ e - k = min e t ∧
      ((m * 2 ^ k : ℕ) : ℚ) * 2 ^ (e - k) = m * 2 ^ e := by
  refine ⟨(e - t).toNat, ?_, by omega, ?_⟩
  · simp only [decreaseExponent, Nat.shiftLeft_eq]
  · rw [zpow_sub₀ (by norm_num), zpow_natCast]
    push_cast
    field_simp

theorem roundsTo_round {s : Sign} {m : ℕ} {e : ℤ} (hm : 0 < m) :
    RoundsTo (signed s (m * 2 ^ e)) (UnpackedFloat.round .binary32 s m e) := by
  have htarget : Format.binary32.targetExponent (totalExponent m e) =
      max ((m.log2 : ℤ) + 1 + e - 24) (-149) := rfl
  obtain ⟨k, hdecrease, hk, hvalue⟩ :=
    decreaseExponent_eq m e (Format.binary32.targetExponent (totalExponent m e))
  have hbits : 2 ^ 23 ≤ m * 2 ^ k ∨ e - k ≤ -149 := by
    rcases le_or_gt (e - k) (-149) with hle | hgt
    · exact .inr hle
    · have hpow : 2 ^ 23 ≤ 2 ^ (m.log2 + k) := Nat.pow_le_pow_right (by norm_num) (by omega)
      refine .inl (hpow.trans ?_)
      rw [pow_add]
      exact Nat.mul_le_mul_right _ (Nat.log2_self_le hm.ne')
  simp only [UnpackedFloat.round, hdecrease]
  rw [← hvalue]
  have hpos : 0 < m * 2 ^ k := Nat.mul_pos hm (Nat.two_pow_pos k)
  exact roundsTo_roundWithAccuracy (represents_exact _) (by exact_mod_cast hpos) hbits

theorem roundsTo_normalize (n e : ℤ) (z : Sign) :
    RoundsTo (n * 2 ^ e) (UnpackedFloat.normalize .binary32 n e z) := by
  unfold UnpackedFloat.normalize
  rcases lt_trichotomy n 0 with hneg | rfl | hpos
  · rw [compare_lt_iff_lt.mpr hneg]
    have hround := roundsTo_round (s := .negative) (m := (-n).toNat) (e := e) (by omega)
    have hcast : (((-n).toNat : ℕ) : ℚ) = -n := by
      have hint : (((-n).toNat : ℕ) : ℤ) = -n := by omega
      exact_mod_cast congrArg (Int.cast (R := ℚ)) hint
    rwa [hcast, signed, neg_mul, neg_neg] at hround
  · rw [compare_eq_iff_eq.mpr rfl]
    exact ⟨trivial, by rw [Int.cast_zero, zero_mul, nearest_zero]; rfl⟩
  · rw [compare_gt_iff_gt.mpr hpos]
    have hround := roundsTo_round (s := .positive) (m := n.toNat) (e := e) (by omega)
    have hcast : ((n.toNat : ℕ) : ℚ) = n := by
      have hint : ((n.toNat : ℕ) : ℤ) = n := by omega
      exact_mod_cast congrArg (Int.cast (R := ℚ)) hint
    rwa [hcast, signed] at hround

/-- What a quotient of mantissas leaves over says where it lies within a unit. -/
theorem represents_quotient {m n : ℕ} (hn : 0 < n) :
    Represents (.ofMantissaAndAccuracy (m / n) (accuracyOfFraction (m % n) n)) ((m : ℚ) / n) := by
  have hpos : (0 : ℚ) < n := by exact_mod_cast hn
  have hparts : (m : ℚ) = n * ((m / n : ℕ) : ℚ) + ((m % n : ℕ) : ℚ) := by
    exact_mod_cast (Nat.div_add_mod m n).symm
  have hfraction : (m : ℚ) / n - ((m / n : ℕ) : ℚ) = ((m % n : ℕ) : ℚ) / n := by
    rw [eq_div_iff hpos.ne', sub_mul, div_mul_cancel₀ _ hpos.ne']
    linarith
  have hrest : m % n < n := Nat.mod_lt m hn
  unfold accuracyOfFraction
  generalize m % n = r at hfraction hrest ⊢
  by_cases hzero : r = 0
  · rw [if_pos hzero]
    show (m : ℚ) / n - ((m / n : ℕ) : ℚ) = 0
    rw [hfraction, hzero, Nat.cast_zero, zero_div]
  · rw [if_neg hzero]
    have hr : (0 : ℚ) < (r : ℚ) / n := by
      have hcast : (0 : ℚ) < r := by exact_mod_cast Nat.pos_of_ne_zero hzero
      exact div_pos hcast hpos
    rcases lt_trichotomy (2 * r) n with hlt | heq | hgt
    · rw [compare_lt_iff_lt.mpr hlt]
      show 0 < (m : ℚ) / n - ((m / n : ℕ) : ℚ) ∧ (m : ℚ) / n - ((m / n : ℕ) : ℚ) < 1 / 2
      have hcast : (2 * r : ℚ) < n := by exact_mod_cast hlt
      rw [hfraction, div_lt_iff₀ hpos]
      exact ⟨hr, by linarith⟩
    · rw [compare_eq_iff_eq.mpr heq]
      show (m : ℚ) / n - ((m / n : ℕ) : ℚ) = 1 / 2
      have hcast : (2 * r : ℚ) = n := by exact_mod_cast heq
      rw [hfraction, div_eq_iff hpos.ne']
      linarith
    · rw [compare_gt_iff_gt.mpr hgt]
      show 1 / 2 < (m : ℚ) / n - ((m / n : ℕ) : ℚ) ∧ (m : ℚ) / n - ((m / n : ℕ) : ℚ) < 1
      have hcast : (n : ℚ) < 2 * r := by exact_mod_cast hgt
      have hbelow : (r : ℚ) < n := by exact_mod_cast hrest
      rw [hfraction, lt_div_iff₀ hpos, div_lt_one hpos]
      exact ⟨by linarith, hbelow⟩

/-- A quotient is cut off behind its 24th bit, or at the least exponent. -/
theorem divCore_bits {m₁ m₂ : ℕ} (h₁ : 0 < m₁) (h₂ : 0 < m₂) (e₁ e₂ : ℤ) :
    ∃ (k : ℕ) (e : ℤ), divCore .binary32 m₁ e₁ m₂ e₂ =
        (m₁ * 2 ^ k / m₂, e, accuracyOfFraction (m₁ * 2 ^ k % m₂) m₂) ∧
      e = e₁ - e₂ - k ∧ (2 ^ 23 ≤ m₁ * 2 ^ k / m₂ ∨ e ≤ -149) := by
  have htarget : Format.binary32.targetExponent (totalExponent m₁ e₁ - totalExponent m₂ e₂) =
      max ((m₁.log2 : ℤ) + 1 + e₁ - (m₂.log2 + 1 + e₂) - 24) (-149) := rfl
  simp only [divCore, htarget, Nat.shiftLeft_eq]
  refine ⟨_, _, rfl, by omega, ?_⟩
  generalize hk : (e₁ - e₂ - min (e₁ - e₂)
    (max ((m₁.log2 : ℤ) + 1 + e₁ - (m₂.log2 + 1 + e₂) - 24) (-149))).toNat = k
  rcases le_or_gt (min (e₁ - e₂) (max ((m₁.log2 : ℤ) + 1 + e₁ - (m₂.log2 + 1 + e₂) - 24) (-149)))
    (-149) with hle | hgt
  · exact .inr hle
  · refine .inl ((Nat.le_div_iff_mul_le h₂).mpr ?_)
    have hpow : 2 ^ (23 + (m₂.log2 + 1)) ≤ 2 ^ (m₁.log2 + k) :=
      Nat.pow_le_pow_right (by norm_num) (by omega)
    calc 2 ^ 23 * m₂ ≤ 2 ^ 23 * 2 ^ (m₂.log2 + 1) :=
          Nat.mul_le_mul_left _ Nat.lt_log2_self.le
      _ = 2 ^ (23 + (m₂.log2 + 1)) := (pow_add 2 23 _).symm
      _ ≤ 2 ^ m₁.log2 * 2 ^ k := hpow.trans (pow_add 2 _ _).le
      _ ≤ m₁ * 2 ^ k := Nat.mul_le_mul_right _ (Nat.log2_self_le h₁.ne')

theorem cast_apply (s : Sign) (n : ℤ) : ((s.apply n : ℤ) : ℚ) = signed s n := by
  cases s <;> simp [Sign.apply, signed]

theorem signed_neg (s : Sign) (x : ℚ) : signed (-s) x = -signed s x := by
  cases s
  · exact (neg_neg x).symm
  · rfl

theorem signed_mul (s t : Sign) (x y : ℚ) : signed (s * t) (x * y) = signed s x * signed t y := by
  cases s <;> cases t
  · exact (neg_mul_neg x y).symm
  · exact (neg_mul x y).symm
  · exact (mul_neg x y).symm
  · rfl

theorem signed_div (s t : Sign) (x y : ℚ) : signed (s / t) (x / y) = signed s x / signed t y := by
  cases s <;> cases t
  · exact (neg_div_neg_eq x y).symm
  · exact (neg_div y x).symm
  · exact (div_neg x).symm
  · rfl

theorem value?_eq_some {u : UnpackedFloat} {x : ℚ} (h : value? u = some x) :
    (∃ s, u = .zero s ∧ x = 0) ∨ ∃ s m e hm, u = .finite s m e hm ∧ x = signed s (m * 2 ^ e) := by
  cases u with
  | infinity s => cases h
  | notANumber => cases h
  | zero s => exact .inl ⟨s, rfl, (Option.some.inj h).symm⟩
  | finite s m e hm => exact .inr ⟨s, m, e, hm, rfl, (Option.some.inj h).symm⟩

theorem representable_of_canonical {u : UnpackedFloat} {x : ℚ} (hu : Canonical u)
    (hx : value? u = some x) : Representable x := by
  obtain ⟨s, rfl, rfl⟩ | ⟨s, m, e, hm, rfl, rfl⟩ := value?_eq_some hx
  · exact ⟨0, 0, by norm_num, by norm_num, by simp⟩
  · refine ⟨s.apply m, e, ?_, hu.2.1, ?_⟩
    · have hcast : (m : ℤ) < 2 ^ 24 := by exact_mod_cast hu.1
      cases s <;> simpa [Sign.apply] using hcast
    · rw [cast_apply]
      cases s <;> simp [signed]

theorem RoundsTo.of_canonical {u : UnpackedFloat} {x : ℚ} (hu : Canonical u)
    (hx : value? u = some x) : RoundsTo x u :=
  ⟨hu, by rw [nearest_of_representable (representable_of_canonical hu hx), hx]⟩

theorem RoundsTo.zero (s : Sign) : RoundsTo 0 (.zero s) :=
  .of_canonical trivial rfl

/-- A mantissa brought to a lesser exponent. -/
theorem signed_decreased (s : Sign) (m : ℕ) {e t : ℤ} (h : t ≤ e) :
    ((s.apply (decreaseExponent m e t).1 : ℤ) : ℚ) * 2 ^ t = signed s (m * 2 ^ e) := by
  obtain ⟨k, hdecrease, hk, hvalue⟩ := decreaseExponent_eq m e t
  rw [hk, min_eq_right h] at hvalue
  rw [hdecrease, cast_apply, ← hvalue, Int.cast_natCast]
  cases s <;> simp [signed]

section Operations

variable {a b : UnpackedFloat} {x y : ℚ} (hca : Canonical a) (hcb : Canonical b)
  (ha : value? a = some x) (hb : value? b = some y)

include hca hcb ha hb

theorem roundsTo_add : RoundsTo (x + y) (UnpackedFloat.add .binary32 a b) := by
  obtain ⟨s, rfl, rfl⟩ | ⟨s, m, e, hm, rfl, rfl⟩ := value?_eq_some ha <;>
    obtain ⟨t, rfl, rfl⟩ | ⟨t, n, f, hn, rfl, rfl⟩ := value?_eq_some hb
  · rw [add_zero]
    cases s <;> cases t <;> exact .zero _
  · rw [zero_add]
    exact .of_canonical hcb hb
  · rw [add_zero]
    exact .of_canonical hca ha
  · have hsum := roundsTo_normalize (s.apply (decreaseExponent m e (min e f)).1 +
      t.apply (decreaseExponent n f (min e f)).1) (min e f) .positive
    rwa [Int.cast_add, add_mul, signed_decreased s m (min_le_left e f),
      signed_decreased t n (min_le_right e f)] at hsum

theorem roundsTo_sub : RoundsTo (x - y) (UnpackedFloat.sub .binary32 a b) := by
  obtain ⟨s, rfl, rfl⟩ | ⟨s, m, e, hm, rfl, rfl⟩ := value?_eq_some ha <;>
    obtain ⟨t, rfl, rfl⟩ | ⟨t, n, f, hn, rfl, rfl⟩ := value?_eq_some hb
  · rw [sub_zero]
    cases s <;> cases t <;> exact .zero _
  · rw [zero_sub, ← signed_neg]
    exact .of_canonical hcb rfl
  · rw [sub_zero]
    exact .of_canonical hca ha
  · have hdifference := roundsTo_normalize (s.apply (decreaseExponent m e (min e f)).1 -
      t.apply (decreaseExponent n f (min e f)).1) (min e f) .positive
    rwa [Int.cast_sub, sub_mul, signed_decreased s m (min_le_left e f),
      signed_decreased t n (min_le_right e f)] at hdifference

theorem roundsTo_mul : RoundsTo (x * y) (UnpackedFloat.mul .binary32 a b) := by
  obtain ⟨s, rfl, rfl⟩ | ⟨s, m, e, hm, rfl, rfl⟩ := value?_eq_some ha <;>
    obtain ⟨t, rfl, rfl⟩ | ⟨t, n, f, hn, rfl, rfl⟩ := value?_eq_some hb
  · rw [mul_zero]
    exact .zero _
  · rw [zero_mul]
    exact .zero _
  · rw [mul_zero]
    exact .zero _
  · have hbits : 2 ^ 23 ≤ m * n ∨ e + f ≤ -149 := by
      obtain ⟨-, -, hnormal | hleast⟩ := hca
      · exact .inl (hnormal.trans (Nat.le_mul_of_pos_right m hn))
      obtain ⟨-, -, hnormal' | hleast'⟩ := hcb
      · exact .inl (hnormal'.trans (Nat.le_mul_of_pos_left n hm))
      · exact .inr (by omega)
    have hproduct : (m * 2 ^ e : ℚ) * (n * 2 ^ f) = ((m * n : ℕ) : ℚ) * 2 ^ (e + f) := by
      rw [zpow_add₀ (by norm_num), Nat.cast_mul, mul_mul_mul_comm]
    rw [← signed_mul, hproduct]
    exact roundsTo_roundWithAccuracy (represents_exact (m * n))
      (by exact_mod_cast Nat.mul_pos hm hn) hbits

omit hca hcb in
theorem roundsTo_div (hne : y ≠ 0) : RoundsTo (x / y) (UnpackedFloat.div .binary32 a b) := by
  obtain ⟨t, rfl, rfl⟩ | ⟨t, n, f, hn, rfl, rfl⟩ := value?_eq_some hb
  · exact absurd rfl hne
  obtain ⟨s, rfl, rfl⟩ | ⟨s, m, e, hm, rfl, rfl⟩ := value?_eq_some ha
  · rw [zero_div]
    exact .zero _
  · obtain ⟨k, g, hcore, hg, hbits⟩ := divCore_bits hm hn e f
    have hmcast : (0 : ℚ) < m := by exact_mod_cast hm
    have hncast : (0 : ℚ) < n := by exact_mod_cast hn
    have hquotient : (m * 2 ^ e : ℚ) / (n * 2 ^ f) = ((m * 2 ^ k : ℕ) : ℚ) / n * 2 ^ g := by
      rw [hg, zpow_sub₀ (by norm_num), zpow_sub₀ (by norm_num), zpow_natCast]
      push_cast
      field_simp
    rw [← signed_div, hquotient]
    simp only [UnpackedFloat.div, hcore]
    exact roundsTo_roundWithAccuracy (represents_quotient hn)
      (div_pos (by push_cast; positivity) hncast) hbits

end Operations

/-- Of two canonical singles the one with the greater exponent is the greater one. -/
theorem magnitude_lt_of_exponent_lt {m n : ℕ} {e f : ℤ} (hm : m < 2 ^ 24) (he : -149 ≤ e)
    (hn : 2 ^ 23 ≤ n ∨ f = -149) (h : e < f) : (m * 2 ^ e : ℚ) < n * 2 ^ f := by
  have hm' : (m : ℚ) < 2 ^ 24 := by exact_mod_cast hm
  have hn' : (2 ^ 23 : ℚ) ≤ n := by exact_mod_cast hn.resolve_right (by omega)
  calc (m * 2 ^ e : ℚ) < 2 ^ 24 * 2 ^ e := mul_lt_mul_of_pos_right hm' (two_zpow_pos e)
    _ = 2 ^ 23 * 2 ^ (e + 1) := by
      rw [zpow_add₀ (by norm_num)]
      ring
    _ ≤ n * 2 ^ f := mul_le_mul hn' (zpow_le_zpow_right₀ (by norm_num) h)
      (two_zpow_pos _).le (by positivity)

theorem compare_magnitudes {m n : ℕ} {e f : ℤ}
    (hm : m < 2 ^ 24 ∧ -149 ≤ e ∧ (2 ^ 23 ≤ m ∨ e = -149))
    (hn : n < 2 ^ 24 ∧ -149 ≤ f ∧ (2 ^ 23 ≤ n ∨ f = -149)) :
    (compare e f).then (compare m n) = compare (m * 2 ^ e : ℚ) (n * 2 ^ f) := by
  rcases lt_trichotomy e f with hlt | rfl | hgt
  · rw [compare_lt_iff_lt.mpr hlt, compare_lt_iff_lt.mpr
      (magnitude_lt_of_exponent_lt hm.1 hm.2.1 hn.2.2 hlt)]
    rfl
  · have hunit := two_zpow_pos e
    rw [compare_eq_iff_eq.mpr rfl, Ordering.then]
    rcases lt_trichotomy m n with hlt | rfl | hgt
    · rw [compare_lt_iff_lt.mpr hlt, compare_lt_iff_lt.mpr
        (mul_lt_mul_of_pos_right (by exact_mod_cast hlt) hunit)]
    · rw [compare_eq_iff_eq.mpr rfl, compare_eq_iff_eq.mpr rfl]
    · rw [compare_gt_iff_gt.mpr hgt, compare_gt_iff_gt.mpr
        (mul_lt_mul_of_pos_right (by exact_mod_cast hgt) hunit)]
  · rw [compare_gt_iff_gt.mpr hgt, compare_gt_iff_gt.mpr
      (magnitude_lt_of_exponent_lt hn.1 hn.2.1 hm.2.2 hgt)]
    rfl

theorem compare_neg_neg (x y : ℚ) : compare (-x) (-y) = (compare x y).swap := by
  rcases lt_trichotomy x y with hlt | rfl | hgt
  · rw [compare_lt_iff_lt.mpr hlt, compare_gt_iff_gt.mpr (neg_lt_neg hlt)]
    rfl
  · rw [compare_eq_iff_eq.mpr rfl, compare_eq_iff_eq.mpr rfl]
    rfl
  · rw [compare_gt_iff_gt.mpr hgt, compare_lt_iff_lt.mpr (neg_lt_neg hgt)]
    rfl

/-- Canonical singles are ordered as their values are. -/
theorem compare_eq {a b : UnpackedFloat} {x y : ℚ} (hca : Canonical a) (hcb : Canonical b)
    (ha : value? a = some x) (hb : value? b = some y) :
    UnpackedFloat.compare a b = some (compare x y) := by
  have hpos : ∀ {m : ℕ} {e : ℤ}, 0 < m → (0 : ℚ) < m * 2 ^ e := fun {m e} hm =>
    mul_pos (by exact_mod_cast hm) (two_zpow_pos e)
  obtain ⟨s, rfl, rfl⟩ | ⟨s, m, e, hm, rfl, rfl⟩ := value?_eq_some ha <;>
    obtain ⟨t, rfl, rfl⟩ | ⟨t, n, f, hn, rfl, rfl⟩ := value?_eq_some hb
  · rw [compare_eq_iff_eq.mpr rfl]
    rfl
  · cases t
    · rw [signed, compare_gt_iff_gt.mpr (neg_lt_zero.mpr (hpos hn))]
      rfl
    · rw [signed, compare_lt_iff_lt.mpr (hpos hn)]
      rfl
  · cases s
    · rw [signed, compare_lt_iff_lt.mpr (neg_lt_zero.mpr (hpos hm))]
      rfl
    · rw [signed, compare_gt_iff_gt.mpr (hpos hm)]
      rfl
  · cases s <;> cases t <;> simp only [UnpackedFloat.compare, signed]
    · rw [compare_magnitudes hca hcb, compare_neg_neg]
    · rw [compare_lt_iff_lt.mpr ((neg_lt_zero.mpr (hpos hm)).trans (hpos hn))]
    · rw [compare_gt_iff_gt.mpr ((neg_lt_zero.mpr (hpos hn)).trans (hpos hm))]
    · rw [compare_magnitudes hca hcb]

end HopCodec.Single
