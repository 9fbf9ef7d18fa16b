/-
Resampling within range.  A mean lies between the pixels it is taken over.  A tap weighs two samples
with weights from zero to one that add up to one, so what it finds lies between them up to rounding,
and the rounding of both passes stays far below half a pixel value.  Along an axis with a cell for
each pixel a tap rests on one sample, which comes back as it is.
-/
import Mathlib.Algebra.Order.BigOperators.Group.List
import Mathlib.Data.Set.Finite.Lattice
import HopCodec.Proofs.Block.Cells
import HopCodec.Proofs.Plane
import HopCodec.Proofs.Single.Functions

namespace HopCodec

open Single

def Between (pixels : Set UInt8) (v : UInt8) : Prop :=
  (∃ a ∈ pixels, a ≤ v) ∧ ∃ b ∈ pixels, v ≤ b

/-- A value within all bounds that some pixels have is between them. -/
theorem between_of_bounds {pixels : Set UInt8} {v : UInt8} (hne : pixels.Nonempty)
    (h : ∀ lo hi, (∀ a ∈ pixels, lo ≤ a ∧ a ≤ hi) → lo ≤ v ∧ v ≤ hi) : Between pixels v := by
  have hfinite : pixels.Finite :=
    ((Set.finite_Iio 256).preimage fun _ _ _ _ => UInt8.toNat_inj.mp).subset fun a _ => a.toNat_lt
  obtain ⟨lo, hlo, hleast⟩ := Set.exists_min_image pixels UInt8.toNat hfinite hne
  obtain ⟨hi, hhi, hgreatest⟩ := Set.exists_max_image pixels UInt8.toNat hfinite hne
  obtain ⟨hlow, hhigh⟩ := h lo hi fun a ha =>
    ⟨UInt8.le_iff_toNat_le.mpr (hleast a ha), UInt8.le_iff_toNat_le.mpr (hgreatest a ha)⟩
  exact ⟨⟨lo, hlo, hlow⟩, hi, hhi, hhigh⟩

/-- Equal bounds leave one value. -/
theorem eq_of_within {v pixel : UInt8} (h : v ≤ pixel ∧ pixel ≤ v) : pixel = v :=
  UInt8.le_antisymm h.2 h.1

section Means

theorem sumRange_mono {start stop : Nat} {f g : Nat → Nat}
    (h : ∀ i, start ≤ i → i < stop → f i ≤ g i) :
    sumRange start stop f ≤ sumRange start stop g := by
  rw [sumRange_eq_sum, sumRange_eq_sum]
  refine List.sum_le_sum fun i hi => h _ (Nat.le_add_right _ _) ?_
  have hlt : i < stop - start := List.mem_range.mp hi
  omega

theorem sumRange_const (start stop c : Nat) :
    sumRange start stop (fun _ => c) = (stop - start) * c := by
  simp [sumRange_eq_sum]

/-- The mean of a cell lies within any bounds of its pixels. -/
theorem cellMean_within {src : Bytes} {stride left right top bottom : Nat} {lo hi : UInt8}
    (hwide : left < right) (hhigh : top < bottom)
    (h : ∀ x, left ≤ x → x < right → ∀ y, top ≤ y → y < bottom →
      lo ≤ src.getD (y * stride + x) 0 ∧ src.getD (y * stride + x) 0 ≤ hi) :
    lo ≤ cellMean src stride left right top bottom ∧
      cellMean src stride left right top bottom ≤ hi := by
  let n := (bottom - top) * (right - left)
  let sum := sumRange top bottom fun y =>
    sumRange left right fun x => (src.getD (y * stride + x) 0).toNat
  have hconst (c : Nat) :
      (sumRange top bottom fun _ => sumRange left right fun _ => c) = n * c := by
    rw [sumRange_const, sumRange_const, Nat.mul_assoc]
  have hleast : n * lo.toNat ≤ sum := by
    rw [← hconst]
    exact sumRange_mono fun y hy hy' => sumRange_mono fun x hx hx' =>
      UInt8.le_iff_toNat_le.mp (h x hx hx' y hy hy').1
  have hgreatest : sum ≤ n * hi.toNat := by
    rw [← hconst]
    exact sumRange_mono fun y hy hy' => sumRange_mono fun x hx hx' =>
      UInt8.le_iff_toNat_le.mp (h x hx hx' y hy hy').2
  have hcount : 0 < n := Nat.mul_pos (Nat.sub_pos_of_lt hhigh) (Nat.sub_pos_of_lt hwide)
  have hhalf : n / 2 < n := Nat.div_lt_self hcount one_lt_two
  have hlow : lo.toNat ≤ (sum + n / 2) / n := by
    rw [Nat.le_div_iff_mul_le hcount, Nat.mul_comm]
    omega
  have hhigh : (sum + n / 2) / n ≤ hi.toNat := by
    rw [← Nat.lt_succ_iff, Nat.div_lt_iff_lt_mul hcount, Nat.succ_mul, Nat.mul_comm]
    omega
  have hmean : (cellMean src stride left right top bottom).toNat = (sum + n / 2) / n :=
    UInt8.toNat_ofNat_of_lt' (Nat.lt_of_le_of_lt hhigh hi.toNat_lt)
  rw [UInt8.le_iff_toNat_le, UInt8.le_iff_toNat_le, hmean]
  exact ⟨hlow, hhigh⟩

end Means

namespace Tap

theorem getD_centres {bounds : List Nat} {i : Nat} (h : i + 1 < bounds.length) :
    (centres bounds).getD i 0.0 = ofNat (bounds.getD i 0 + bounds.getD (i + 1) 0) / 2.0 := by
  induction bounds generalizing i with
  | nil => exact absurd h (Nat.not_lt_zero _)
  | cons a rest ih =>
      cases rest with
      | nil => simp at h
      | cons b rest =>
          cases i with
          | zero => rfl
          | succ i =>
              rw [centres, List.getD_cons_succ, ih (Nat.lt_of_succ_lt_succ h)]
              rfl

theorem denotes_centre {m : ℕ} (h : m < 2 ^ 24) : Denotes (ofNat m / 2.0) ((m : ℤ) / 2) :=
  ((denotes_ofNat h).div denotes_two two_ne_zero).exact_half (by rw [Int.cast_natCast])
    (by rw [Nat.abs_cast]; exact_mod_cast h)

theorem denotes_position {p : ℕ} (h : p < 2 ^ 16) :
    Denotes (ofNat p + 0.5) ((2 * p + 1 : ℤ) / 2) :=
  ((denotes_ofNat (by omega)).add denotes_half).exact_half (by push_cast; ring)
    (abs_lt.mpr ⟨by omega, by omega⟩)

/-- The distance of two halved integers is exact. -/
theorem denotes_sub_halves {a b : Float32} {m n : ℤ} (ha : Denotes a (m / 2))
    (hb : Denotes b (n / 2)) (h : |m - n| < 2 ^ 24) : Denotes (a - b) ((m - n : ℤ) / 2) :=
  (ha.sub hb).exact_half (by push_cast; ring) h

/-- The middle of a cell is exact. -/
theorem denotes_getD_centres {bounds : List Nat} {len side i : Nat}
    (h : Cuts bounds.toArray len side) (hlen : len < 2 ^ 16) (hi : i < side) :
    Denotes ((centres bounds).toArray.getD i 0.0)
      ((bounds.toArray.getD i 0 + bounds.toArray.getD (i + 1) 0 : ℤ) / 2) := by
  have hlast := h.le_len (i := i + 1) hi
  have hfirst := h.le_len (i := i) hi.le
  have hsize := h.size
  rw [List.size_toArray] at hsize
  have hget : (centres bounds).toArray.getD i 0.0 =
      ofNat (bounds.toArray.getD i 0 + bounds.toArray.getD (i + 1) 0) / 2.0 := by
    rw [getD_toArray, getD_toArray, ← getD_centres (by omega)]
    simp [Array.getD_eq_getD_getElem?, List.getD_eq_getElem?_getD]
  rw [hget]
  exact_mod_cast denotes_centre (by omega)

def Weighted (t : Tap) : Prop :=
  ∃ w : ℚ, 0 ≤ w ∧ w ≤ 1 ∧ Denotes t.weight w

/-- Whatever the distances are, the clamped quotient is a weight. -/
theorem denotes_weight {a b : Float32} {m n : ℤ} (ha : Denotes a (m / 2)) (hb : Denotes b (n / 2))
    (hm : |m| < 2 ^ 24) (hn : 0 < n) :
    Denotes (clamp (a / b) 0.0 1.0) (max 0 (min (nearest (m / n)) 1)) := by
  have hm' : |(m : ℚ)| < 2 ^ 24 := by exact_mod_cast hm
  have hn' : (1 : ℚ) ≤ n := by exact_mod_cast hn
  have hpos : (0 : ℚ) < n := zero_lt_one.trans_le hn'
  have hsize : |(m : ℚ) / n| < 2 ^ 127 := by
    rw [abs_div, abs_of_pos hpos]
    calc |(m : ℚ)| / n ≤ |(m : ℚ)| := div_le_self (abs_nonneg _) hn'
      _ < 2 ^ 127 := by linarith
  have hquotient := ha.div hb (by linarith)
  rw [div_div_div_cancel_right₀ two_ne_zero] at hquotient
  exact (hquotient.denotes hsize).clamp denotes_zero denotes_one zero_le_one

/-- With more than one sample, the centre below a pixel is found among all but the last, and it
tells the weight of the pixel's tap. -/
theorem exists_along {bounds : List Nat} {len side p : Nat} (h : Cuts bounds.toArray len side)
    (hlen : len < 2 ^ 16) (hp : p < len) (hmany : 1 < side) :
    ∃ i, i = lowerCentre (centres bounds).toArray (ofNat p + 0.5) 0 ∧ i + 1 < side ∧
      (along bounds p).lower = i ∧ (along bounds p).upper = i + 1 ∧
      Denotes (along bounds p).weight (max 0 (min (nearest
        (((2 * p + 1 - (bounds.toArray.getD i 0 + bounds.toArray.getD (i + 1) 0) : ℤ) : ℚ) /
          ((bounds.toArray.getD (i + 1 + 1) 0 - bounds.toArray.getD i 0 : ℤ) : ℚ))) 1)) := by
  have hcount : (centres bounds).toArray.size = side := h.size_centres
  let i := lowerCentre (centres bounds).toArray (ofNat p + 0.5) 0
  have hnext : i + 1 < (centres bounds).toArray.size := lowerCentre_lt _ (by omega)
  rw [hcount] at hnext
  have hlast := h.le_len (i := i + 1 + 1) hnext
  have hrising := h.lt_of_lt (i := i) (j := i + 1 + 1) (by omega) hnext
  have hmiddle := h.le_of_le (i := i + 1) (j := i + 1 + 1) (by omega) hnext
  have hhere := denotes_getD_centres h hlen (i := i) (by omega)
  have hgap := denotes_sub_halves (denotes_getD_centres h hlen hnext) hhere
    (abs_lt.mpr ⟨by omega, by omega⟩)
  rw [show (bounds.toArray.getD (i + 1) 0 + bounds.toArray.getD (i + 1 + 1) 0 -
    (bounds.toArray.getD i 0 + bounds.toArray.getD (i + 1) 0) : ℤ) =
      bounds.toArray.getD (i + 1 + 1) 0 - bounds.toArray.getD i 0 by ring] at hgap
  have hone : (centres bounds).toArray.size ≠ 1 := by omega
  refine ⟨i, rfl, hnext, ?_, ?_, ?_⟩ <;> rw [along, ofPixel, if_neg hone]
  exact denotes_weight
    (denotes_sub_halves (denotes_position (by omega)) hhere (abs_lt.mpr ⟨by omega, by omega⟩))
    hgap (abs_lt.mpr ⟨by omega, by omega⟩) (by omega)

/-- A single sample serves every pixel. -/
theorem along_of_one {bounds : List Nat} {len : Nat} (h : Cuts bounds.toArray len 1) (p : Nat) :
    along bounds p = ⟨0, 0, 0.0⟩ :=
  if_pos h.size_centres

theorem weighted_along {bounds : List Nat} {len side p : Nat} (h : Cuts bounds.toArray len side)
    (hlen : len < 2 ^ 16) (hp : p < len) : (along bounds p).Weighted := by
  obtain ⟨i, hi, -⟩ := h.exists_piece hp
  rcases Nat.lt_or_ge 1 side with hmany | hfew
  · obtain ⟨_, _, _, _, _, hweight⟩ := exists_along h hlen hp hmany
    exact ⟨_, le_max_left _ _, max_le zero_le_one (min_le_right _ _), hweight⟩
  · obtain rfl : side = 1 := by omega
    rw [along_of_one h]
    exact ⟨0, le_refl 0, zero_le_one, denotes_zero⟩

/-- What a tap of weight `w` finds between two samples, each step rounded to a single. -/
def mix (w a b : ℚ) : ℚ :=
  nearest (nearest (a * nearest (1 - w)) + nearest (b * w))

section Mix

variable {t : Tap} {sample : Nat → Float32} {w a b : ℚ}

theorem denotes_blend (hw : Denotes t.weight w) (hnonneg : 0 ≤ w) (hle : w ≤ 1)
    (ha : Denotes (sample t.lower) a) (hb : Denotes (sample t.upper) b) (hasize : |a| ≤ 2 ^ 9)
    (hbsize : |b| ≤ 2 ^ 9) : Denotes (t.blend sample) (mix w a b) := by
  have hrest : |1 - w| ≤ 1 := abs_le.mpr ⟨by linarith, by linarith⟩
  have hrest' := (abs_nearest_le (1 - w)).trans (mul_le_mul_of_nonneg_left hrest zero_le_two)
  have hfirst : |a * nearest (1 - w)| ≤ 2 ^ 9 * (2 * 1) := by
    rw [abs_mul]
    exact mul_le_mul hasize hrest' (abs_nonneg _) (by norm_num)
  have hsecond : |b * w| ≤ 2 ^ 9 * 1 := by
    rw [abs_mul, abs_of_nonneg hnonneg]
    exact mul_le_mul hbsize hle hnonneg (by norm_num)
  have hsum := (abs_add_le (nearest (a * nearest (1 - w))) (nearest (b * w))).trans
    (add_le_add (abs_nearest_le _) (abs_nearest_le _))
  exact (((ha.mul ((denotes_one.sub hw).denotes (by linarith))).denotes (by linarith)).add
    ((hb.mul hw).denotes (by linarith))).denotes (by linarith)

/-- Between two values of a range a tap finds one that is hardly out of it. -/
theorem mix_within {lo hi : ℚ} (hnonneg : 0 ≤ w) (hle : w ≤ 1) (ha : lo ≤ a ∧ a ≤ hi)
    (hb : lo ≤ b ∧ b ≤ hi) (hlo : -2 ^ 8 ≤ lo) (hhi : hi ≤ 2 ^ 8) :
    lo - 1 / 8 ≤ mix w a b ∧ mix w a b ≤ hi + 1 / 8 := by
  have hasize : |a| ≤ 2 ^ 8 := abs_le.mpr ⟨hlo.trans ha.1, ha.2.trans hhi⟩
  have hrest := abs_le.mp (abs_nearest_sub_le_of_small (x := 1 - w)
    (abs_lt.mpr ⟨by linarith, by linarith⟩))
  -- The rounded weights add up to one, but for an error that the first sample scales.
  have hdrift : |a * nearest (1 - w) - a * (1 - w)| ≤ 1 / 2 ^ 6 := by
    calc |a * nearest (1 - w) - a * (1 - w)| = |a| * |nearest (1 - w) - (1 - w)| := by
          rw [← abs_mul]
          congr 1
          ring
      _ ≤ 2 ^ 8 * (1 / 2 ^ 14) := mul_le_mul hasize (abs_le.mpr hrest) (abs_nonneg _) (by norm_num)
      _ = 1 / 2 ^ 6 := by norm_num
  obtain ⟨hdriftLow, hdriftHigh⟩ := abs_le.mp hdrift
  have hfirstLow : lo * (1 - w) ≤ a * (1 - w) := mul_le_mul_of_nonneg_right ha.1 (by linarith)
  have hfirstHigh : a * (1 - w) ≤ hi * (1 - w) := mul_le_mul_of_nonneg_right ha.2 (by linarith)
  have hsecondLow : lo * w ≤ b * w := mul_le_mul_of_nonneg_right hb.1 hnonneg
  have hsecondHigh : b * w ≤ hi * w := mul_le_mul_of_nonneg_right hb.2 hnonneg
  have hfirstSize : |a * (1 - w)| ≤ 2 ^ 8 * 1 := by
    rw [abs_mul, abs_of_nonneg (show 0 ≤ 1 - w by linarith)]
    exact mul_le_mul hasize (by linarith) (by linarith) (by norm_num)
  have hsecondSize : |b * w| ≤ 2 ^ 8 * 1 := by
    rw [abs_mul, abs_of_nonneg hnonneg]
    exact mul_le_mul (abs_le.mpr ⟨hlo.trans hb.1, hb.2.trans hhi⟩) hle hnonneg (by norm_num)
  obtain ⟨hfirstMin, hfirstMax⟩ := abs_le.mp hfirstSize
  obtain ⟨hsecondMin, hsecondMax⟩ := abs_le.mp hsecondSize
  obtain ⟨haLow, haHigh⟩ := abs_le.mp (abs_nearest_sub_le_of_small (x := a * nearest (1 - w))
    (abs_lt.mpr ⟨by linarith, by linarith⟩))
  obtain ⟨hbLow, hbHigh⟩ := abs_le.mp (abs_nearest_sub_le_of_small (x := b * w)
    (abs_lt.mpr ⟨by linarith, by linarith⟩))
  obtain ⟨hlow, hhigh⟩ := abs_le.mp (abs_nearest_sub_le_of_small
    (x := nearest (a * nearest (1 - w)) + nearest (b * w))
    (abs_lt.mpr ⟨by linarith, by linarith⟩))
  unfold mix
  constructor <;> linarith

/-- Without weight the second sample does not show. -/
theorem mix_zero (ha : Representable a) (b : ℚ) : mix 0 a b = a := by
  have hone : nearest 1 = 1 := nearest_of_representable denotes_one.representable
  rw [mix, sub_zero, hone, mul_one, mul_zero, nearest_zero, add_zero, nearest_of_representable ha,
    nearest_of_representable ha]

/-- With all the weight the first sample does not show. -/
theorem mix_one (a : ℚ) (hb : Representable b) : mix 1 a b = b := by
  rw [mix, sub_self, nearest_zero, mul_zero, nearest_zero, mul_one, zero_add,
    nearest_of_representable hb, nearest_of_representable hb]

end Mix

/-- A tap that gives all the weight to one sample. -/
def RestsOn (t : Tap) (i : Nat) : Prop :=
  (t.lower = i ∧ Denotes t.weight 0) ∨ (t.upper = i ∧ Denotes t.weight 1)

/-- A tap shows the sample that it rests on as it is. -/
theorem RestsOn.denotes_blend {t : Tap} {i : Nat} (h : t.RestsOn i) {sample : Nat → Float32}
    {value : Nat → ℚ} (hsample : ∀ j, Denotes (sample j) (value j))
    (hsize : ∀ j, |value j| ≤ 2 ^ 9) : Denotes (t.blend sample) (value i) := by
  obtain ⟨rfl, hweight⟩ | ⟨rfl, hweight⟩ := h
  · have hblend := Tap.denotes_blend hweight le_rfl zero_le_one (hsample t.lower) (hsample t.upper)
      (hsize _) (hsize _)
    rwa [mix_zero (hsample _).representable] at hblend
  · have hblend := Tap.denotes_blend hweight zero_le_one le_rfl (hsample t.lower) (hsample t.upper)
      (hsize _) (hsize _)
    rwa [mix_one _ (hsample _).representable] at hblend

/-- The search for a centre stops at one that is not beyond the position, or at the first one, and
before any that is not beyond it either, except the last. -/
theorem lowerCentre_spec (centres : Array Float32) (position : Float32) (i : Nat) :
    (lowerCentre centres position i = i ∨
      centres.getD (lowerCentre centres position i) 0.0 ≤ position) ∧
    (lowerCentre centres position i + 2 < centres.size →
      ¬ centres.getD (lowerCentre centres position i + 1) 0.0 ≤ position) := by
  induction i using lowerCentre.induct centres position with
  | case1 i hmore ih =>
      rw [lowerCentre, if_pos hmore]
      refine ⟨.inr ?_, ih.2⟩
      rcases ih.1 with hstay | hbelow
      · rw [hstay]
        exact hmore.2
      · exact hbelow
  | case2 i hdone =>
      rw [lowerCentre, if_neg hdone]
      exact ⟨.inl rfl, fun hroom hle => hdone ⟨hroom, hle⟩⟩

/-- Where every pixel has a cell of its own, its tap rests on its own sample. -/
theorem restsOn_along {bounds : List Nat} {len p : Nat} (h : Cuts bounds.toArray len len)
    (hlen : len < 2 ^ 16) (hp : p < len) : (along bounds p).RestsOn p := by
  have hget (k : Nat) (hk : k < len + 1) : bounds.toArray.getD k 0 = k := by
    simp [h.eq_range, Array.getD_eq_getD_getElem?, hk]
  rcases Nat.lt_or_ge 1 len with hmany | hfew
  · obtain ⟨i, hi, hnext, hlower, hupper, hweight⟩ := exists_along h hlen hp hmany
    rw [hget i (by omega), hget (i + 1) (by omega), hget (i + 1 + 1) (by omega)] at hweight
    obtain ⟨hbelow, habove⟩ := lowerCentre_spec (centres bounds).toArray (ofNat p + 0.5) 0
    have hcount : (centres bounds).toArray.size = len := h.size_centres
    rw [← hi, hcount] at habove
    rw [← hi] at hbelow
    have hposition : Denotes (ofNat p + 0.5) ((2 * p + 1 : ℤ) / 2) := denotes_position (by omega)
    have hcentre (k : Nat) (hk : k < len) :
        (centres bounds).toArray.getD k 0.0 ≤ ofNat p + 0.5 ↔ k ≤ p := by
      have hdenotes := denotes_getD_centres h hlen hk
      rw [hget k (by omega), hget (k + 1) (by omega)] at hdenotes
      rw [hdenotes.le_iff hposition, div_le_div_iff_of_pos_right two_pos]
      norm_cast
      omega
    rw [hcentre i (by omega)] at hbelow
    -- The pixel is that of the centre found, or the last one, whose centre is never found.
    have hcases : p = i ∨ p = i + 1 := by
      rcases Nat.lt_or_ge (i + 2) len with hroom | hlast
      · have habove := habove hroom
        rw [hcentre (i + 1) (by omega)] at habove
        omega
      · omega
    rcases hcases with rfl | rfl
    · refine .inl ⟨hlower, ?_⟩
      rw [show (2 * p + 1 - (p + (p + 1 : ℕ)) : ℤ) = 0 by push_cast; ring, Int.cast_zero, zero_div,
        nearest_zero, min_eq_left zero_le_one, max_self] at hweight
      exact hweight
    · refine .inr ⟨hupper, ?_⟩
      rw [show (2 * (i + 1 : ℕ) + 1 - (i + (i + 1 : ℕ)) : ℤ) = 2 by push_cast; ring,
        show ((i + 1 + 1 : ℕ) - i : ℤ) = 2 by push_cast; ring, div_self (by norm_num),
        nearest_of_representable denotes_one.representable, min_self,
        max_eq_right zero_le_one] at hweight
      exact hweight
  · obtain ⟨rfl, rfl⟩ : p = 0 ∧ len = 1 := by omega
    rw [along_of_one h]
    exact .inl ⟨rfl, denotes_zero⟩

/-- A blend looks at two samples alone. -/
theorem blend_congr {t : Tap} {sample sample' : Nat → Float32}
    (hlower : sample t.lower = sample' t.lower) (hupper : sample t.upper = sample' t.upper) :
    t.blend sample = t.blend sample' := by
  rw [blend, blend, hlower, hupper]

end Tap

theorem getD_stretchRows {taps : Array Tap} (samples : Bytes) (columns : Nat) {rows x y : Nat}
    (hx : x < taps.size) (hy : y < rows) :
    (stretchRows samples columns rows taps).getD (y * taps.size + x) 0.0 =
      taps[x].blend fun i => (samples.getD (y * columns + i) 0).toFloat32 := by
  obtain ⟨hlt, hcolumn, hrow⟩ := raster_index hx hy
  rw [Nat.mul_comm taps.size] at hlt
  simp only [stretchRows, Array.getD_eq_getD_getElem?, Array.getElem?_ofFn, hlt, dif_pos, hcolumn,
    hrow, Array.getElem?_eq_getElem hx, Option.getD_some]

namespace BlockCells

def sampleAt (c : BlockCells) (samples : Bytes) (i j : Nat) : Float32 :=
  (samples.getD (j * c.columns + i) 0).toFloat32

/-- The pixel in a column and a row that samples are stretched to. -/
def pixel (c : BlockCells) (samples : Bytes) (x y : Nat) : UInt8 :=
  toPixel ((Tap.along c.y y).blend fun j => (Tap.along c.x x).blend fun i => c.sampleAt samples i j)

variable {c : BlockCells} {samples : Bytes} {width height columns rows x y : Nat}

section Cut

variable (hcutX : Cuts c.x.toArray width columns) (hcutY : Cuts c.y.toArray height rows)

include hcutX hcutY

theorem getElem?_upsample (samples : Bytes) (hx : x < width) (hy : y < height) :
    (c.upsample samples)[y * width + x]? = some (c.pixel samples x y) := by
  have hacross : (Tap.ofBounds c.x).size = width := (reaching_ofBounds hcutX).size
  have hx' : x < (Tap.ofBounds c.x).size := hacross ▸ hx
  obtain ⟨hlower, hupper⟩ := Tap.along_lt hcutY hy
  have hsample (j : Nat) (hj : j < rows) :
      (stretchRows samples columns rows (Tap.ofBounds c.x)).getD (j * width + x) 0.0 =
        (Tap.along c.x x).blend fun i => c.sampleAt samples i j := by
    have hget := getD_stretchRows samples columns hx' hj
    rw [hacross, Tap.getElem_ofBounds] at hget
    rw [hget, ← columns_eq hcutX]
    rfl
  rw [getElem?_upsample_rows hcutX hcutY samples hx hy]
  exact congrArg (fun value => some (toPixel value))
    (Tap.blend_congr (hsample _ hlower) (hsample _ hupper))

/-- Whatever is known of every pixel is known of everything that samples are stretched to. -/
theorem exists_of_mem_upsample {v : UInt8} (hv : v ∈ c.upsample samples) :
    ∃ x < width, ∃ y < height, v = c.pixel samples x y := by
  obtain ⟨k, hk, rfl⟩ := Array.mem_iff_getElem.mp hv
  have hk' : k < width * height := size_upsample hcutX hcutY samples ▸ hk
  have hcolumn := BlockGrid.mod_lt_of_lt_mul hk'
  have hrow := BlockGrid.div_lt_of_lt_mul hk'
  have hget := getElem?_upsample hcutX hcutY samples hcolumn hrow
  rw [Nat.div_add_mod', Array.getElem?_eq_getElem hk] at hget
  exact ⟨_, hcolumn, _, hrow, Option.some.inj hget⟩

end Cut

def valueAt (c : BlockCells) (samples : Bytes) (i j : Nat) : ℚ :=
  (samples.getD (j * c.columns + i) 0).toNat

theorem denotes_sampleAt (c : BlockCells) (samples : Bytes) (i j : Nat) :
    Denotes (c.sampleAt samples i j) (c.valueAt samples i j) :=
  denotes_toFloat32 _

theorem abs_valueAt_le (c : BlockCells) (samples : Bytes) (i j : Nat) :
    |c.valueAt samples i j| ≤ 2 ^ 8 := by
  rw [valueAt, Nat.abs_cast]
  exact_mod_cast (samples.getD (j * c.columns + i) 0).toNat_lt.le

theorem abs_valueAt_le' (c : BlockCells) (samples : Bytes) (i j : Nat) :
    |c.valueAt samples i j| ≤ 2 ^ 9 :=
  (c.abs_valueAt_le samples i j).trans (by norm_num)

theorem valueAt_within {lo hi : UInt8} {i j : Nat}
    (h : lo ≤ samples.getD (j * c.columns + i) 0 ∧ samples.getD (j * c.columns + i) 0 ≤ hi) :
    (lo.toNat : ℚ) ≤ c.valueAt samples i j ∧ c.valueAt samples i j ≤ hi.toNat :=
  ⟨Nat.cast_le.mpr (UInt8.le_iff_toNat_le.mp h.1), Nat.cast_le.mpr (UInt8.le_iff_toNat_le.mp h.2)⟩

/-- The value of weight `w` between two samples of each row, within any bounds of the row. -/
theorem exists_row (samples : Bytes) (hcutX : Cuts c.x.toArray width columns)
    (hwidth : width < 2 ^ 16) (hx : x < width) : ∃ value : Nat → ℚ,
      (∀ j, Denotes ((Tap.along c.x x).blend fun i => c.sampleAt samples i j) (value j)) ∧
      ∀ j (lo hi : UInt8), (∀ i < columns, lo ≤ samples.getD (j * columns + i) 0 ∧
        samples.getD (j * columns + i) 0 ≤ hi) →
          lo.toNat - 1 / 8 ≤ value j ∧ value j ≤ hi.toNat + 1 / 8 := by
  obtain ⟨hlower, hupper⟩ := Tap.along_lt hcutX hx
  obtain ⟨w, hw, hw', hweight⟩ := Tap.weighted_along hcutX hwidth hx
  refine ⟨fun j => Tap.mix w (c.valueAt samples (Tap.along c.x x).lower j)
    (c.valueAt samples (Tap.along c.x x).upper j), fun j => ?_, fun j lo hi h => ?_⟩
  · exact Tap.denotes_blend hweight hw hw' (c.denotes_sampleAt samples _ j)
      (c.denotes_sampleAt samples _ j) (c.abs_valueAt_le' ..) (c.abs_valueAt_le' ..)
  · have hlo : (0 : ℚ) ≤ lo.toNat := Nat.cast_nonneg _
    have hhi : (hi.toNat : ℚ) ≤ 2 ^ 8 := by exact_mod_cast hi.toNat_lt.le
    rw [← columns_eq hcutX] at h hlower hupper
    exact Tap.mix_within hw hw' (valueAt_within (h _ hlower)) (valueAt_within (h _ hupper))
      (by linarith) hhi

/-- A pixel lies within any bounds of the samples. -/
theorem pixel_within (hcutX : Cuts c.x.toArray width columns) (hcutY : Cuts c.y.toArray height rows)
    (hwidth : width < 2 ^ 16) (hheight : height < 2 ^ 16) (hx : x < width) (hy : y < height)
    {lo hi : UInt8} (h : ∀ i < columns, ∀ j < rows, lo ≤ samples.getD (j * columns + i) 0 ∧
      samples.getD (j * columns + i) 0 ≤ hi) :
    lo ≤ c.pixel samples x y ∧ c.pixel samples x y ≤ hi := by
  obtain ⟨hlower, hupper⟩ := Tap.along_lt hcutY hy
  obtain ⟨w, hw, hw', hweight⟩ := Tap.weighted_along hcutY hheight hy
  obtain ⟨value, hvalue, hrange⟩ := exists_row samples hcutX hwidth hx
  have hlo : (0 : ℚ) ≤ lo.toNat := Nat.cast_nonneg _
  have hhi : (hi.toNat : ℚ) + 1 ≤ 2 ^ 8 := by exact_mod_cast hi.toNat_lt
  obtain ⟨haLow, haHigh⟩ := hrange _ lo hi fun i hi' => h i hi' _ hlower
  obtain ⟨hbLow, hbHigh⟩ := hrange _ lo hi fun i hi' => h i hi' _ hupper
  obtain ⟨hlow, hhigh⟩ := Tap.mix_within hw hw' ⟨haLow, haHigh⟩ ⟨hbLow, hbHigh⟩ (by linarith)
    (by linarith)
  refine Denotes.toPixel_within (Tap.denotes_blend hweight hw hw' (hvalue _) (hvalue _)
    (abs_le.mpr ⟨?_, ?_⟩) (abs_le.mpr ⟨?_, ?_⟩)) ?_ ?_ <;> linarith

/-- Taps find the same pixel between samples that stand for the same values. -/
theorem toPixel_blend_congr {t : Tap} (ht : t.Weighted) {sample sample' : Nat → Float32}
    {value : Nat → ℚ} (hvalue : ∀ j, |value j| ≤ 2 ^ 8) (h : ∀ j, Denotes (sample j) (value j))
    (h' : ∀ j, Denotes (sample' j) (value j)) :
    toPixel (t.blend sample) = toPixel (t.blend sample') := by
  obtain ⟨w, hw, hw', hweight⟩ := ht
  have hsize (j : Nat) : |value j| ≤ 2 ^ 9 := (hvalue j).trans (by norm_num)
  obtain ⟨hlow, hhigh⟩ := Tap.mix_within hw hw' (abs_le.mp (hvalue t.lower))
    (abs_le.mp (hvalue t.upper)) le_rfl le_rfl
  exact Denotes.toPixel_congr (Tap.denotes_blend hweight hw hw' (h _) (h _) (hsize _) (hsize _))
    (Tap.denotes_blend hweight hw hw' (h' _) (h' _) (hsize _) (hsize _))
    (abs_lt.mpr ⟨by linarith, by linarith⟩)

/-- Along rows of full resolution a pixel depends on the samples of its own column alone. -/
theorem pixel_of_full_columns (hcutX : Cuts c.x.toArray width width)
    (hcutY : Cuts c.y.toArray height rows) (hwidth : width < 2 ^ 16) (hheight : height < 2 ^ 16)
    (hx : x < width) (hy : y < height) :
    c.pixel samples x y =
      toPixel ((Tap.along c.y y).blend fun j => c.sampleAt samples x j) := by
  refine toPixel_blend_congr (Tap.weighted_along hcutY hheight hy)
    (c.abs_valueAt_le samples x) (fun j => ?_) (c.denotes_sampleAt samples x)
  exact (Tap.restsOn_along hcutX hwidth hx).denotes_blend
    (fun i => c.denotes_sampleAt samples i j) fun i => c.abs_valueAt_le' samples i j

/-- Along columns of full resolution a pixel depends on the samples of its own row alone. -/
theorem pixel_of_full_rows (hcutX : Cuts c.x.toArray width columns)
    (hcutY : Cuts c.y.toArray height height) (hwidth : width < 2 ^ 16) (hheight : height < 2 ^ 16)
    (hx : x < width) (hy : y < height) :
    c.pixel samples x y =
      toPixel ((Tap.along c.x x).blend fun i => c.sampleAt samples i y) := by
  obtain ⟨value, hvalue, hrange⟩ := exists_row samples hcutX hwidth hx
  have hbytes (j : Nat) : -(1 / 8) ≤ value j ∧ value j ≤ 255 + 1 / 8 := by
    have h := hrange j 0 255 fun i _ => ⟨UInt8.le_iff_toNat_le.mpr (Nat.zero_le _),
      UInt8.le_iff_toNat_le.mpr (Nat.le_of_lt_succ (UInt8.toNat_lt _))⟩
    rw [show (255 : UInt8).toNat = 255 from rfl, UInt8.toNat_zero] at h
    norm_num at h ⊢
    exact h
  have hsize (j : Nat) : |value j| ≤ 2 ^ 9 :=
    abs_le.mpr ⟨by linarith [(hbytes j).1], by linarith [(hbytes j).2]⟩
  exact Denotes.toPixel_congr ((Tap.restsOn_along hcutY hheight hy).denotes_blend hvalue hsize)
    (hvalue y) (lt_of_le_of_lt (hsize y) (by norm_num))

/-- With a sample for each pixel, the samples are the pixels. -/
theorem upsample_of_full (hcutX : Cuts c.x.toArray width width)
    (hcutY : Cuts c.y.toArray height height) (hwidth : width < 2 ^ 16) (hheight : height < 2 ^ 16)
    (hsize : samples.size = width * height) : c.upsample samples = samples := by
  have hpixel (x : Nat) (hx : x < width) (y : Nat) (hy : y < height) :
      c.pixel samples x y = samples.getD (y * width + x) 0 := by
    have hrest : Denotes ((Tap.along c.x x).blend fun i => c.sampleAt samples i y)
        (c.valueAt samples x y) :=
      (Tap.restsOn_along hcutX hwidth hx).denotes_blend
        (fun i => c.denotes_sampleAt samples i y) fun i => c.abs_valueAt_le' samples i y
    rw [valueAt, columns_eq hcutX] at hrest
    rw [pixel_of_full_rows hcutX hcutY hwidth hheight hx hy]
    exact eq_of_within (hrest.toPixel_within (by linarith) (by linarith))
  apply bytes_ext
  · rw [size_upsample hcutX hcutY, hsize]
  · intro k hk
    rw [size_upsample hcutX hcutY] at hk
    have hcolumn := BlockGrid.mod_lt_of_lt_mul hk
    have hrow := BlockGrid.div_lt_of_lt_mul hk
    have hget := getElem?_upsample hcutX hcutY samples hcolumn hrow
    rw [hpixel _ hcolumn _ hrow, Nat.div_add_mod'] at hget
    rw [Array.getD_eq_getD_getElem?, hget, Option.getD_some]

end BlockCells

end HopCodec
