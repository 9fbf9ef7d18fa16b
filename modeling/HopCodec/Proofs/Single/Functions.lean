/-
The rules for comparisons and integer conversions on singles that stand for rationals, and what is
known of a single that may have overflowed.
-/
import HopCodec.Proofs.Single.Arithmetic

namespace HopCodec.Single

open Float.Model Float.Model.UnpackedFloat

theorem denotes_zero : Denotes 0.0 0 := by
  have hparts : (0.0 : Float32).toModel.unpack = .zero .positive := rfl
  rw [Denotes, hparts]
  rfl

/-- The value of a literal is read off its parts. -/
theorem denotes_of_parts {a : Float32} {x : ℚ} (m : ℕ) (e : ℤ) (hm : 0 < m)
    (hparts : a.toModel.unpack = .finite .positive m e hm) (hx : m * 2 ^ e = x) : Denotes a x := by
  rw [Denotes, hparts, ← hx]
  rfl

theorem denotes_half : Denotes 0.5 (1 / 2) :=
  denotes_of_parts 8388608 (-24) (by decide) rfl (by norm_num)

theorem denotes_one : Denotes 1.0 1 :=
  denotes_of_parts 8388608 (-23) (by decide) rfl (by norm_num)

theorem denotes_two : Denotes 2.0 2 :=
  denotes_of_parts 8388608 (-22) (by decide) rfl (by norm_num)

theorem denotes_ten : Denotes 10.0 10 :=
  denotes_of_parts 10485760 (-20) (by decide) rfl (by norm_num)

/-- The tenths of a small integer. -/
theorem denotes_tenth {n : ℕ} (hn : n < 2 ^ 24) : Denotes (ofNat n / 10.0) (nearest (n / 10)) := by
  have hcast : (n : ℚ) < 2 ^ 24 := by exact_mod_cast hn
  refine ((denotes_ofNat hn).div denotes_ten (by norm_num)).denotes ?_
  rw [abs_of_nonneg (by positivity)]
  linarith

/-- Half an integer comes out as it is. -/
theorem Delivers.exact_half {a : Float32} {x : ℚ} {n : ℤ} (h : Delivers a x) (heq : x = n / 2)
    (hn : |n| < 2 ^ 24) : Denotes a (n / 2) := by
  have hcast : |(n : ℚ)| < 2 ^ 24 := by exact_mod_cast hn
  refine h.exact heq (representable_half hn) ?_
  rw [abs_div, abs_two]
  linarith

/-- Rounding moves small values by very little. -/
theorem abs_nearest_sub_le_of_small {x : ℚ} (hx : |x| < 2 ^ 11) :
    |nearest x - x| ≤ 1 / 2 ^ 14 :=
  (abs_nearest_sub_le (k := -13) (by norm_num) (hx.trans_eq (by norm_num))).trans_eq (by norm_num)

/-- Small results come out almost as they are. -/
theorem Delivers.near {a : Float32} {x : ℚ} (h : Delivers a x) (hx : |x| < 2 ^ 11) :
    ∃ y, Denotes a y ∧ |y - x| ≤ 1 / 2 ^ 14 :=
  ⟨_, h.denotes (hx.trans (by norm_num)), abs_nearest_sub_le_of_small hx⟩

namespace Denotes

variable {a b lo hi : Float32} {x y l u : ℚ}

theorem larger (ha : Denotes a x) (hb : Denotes b y) : Denotes (larger a b) (max x y) := by
  unfold Single.larger
  rw [if_neg (by rw [hb.isNaN_eq]; exact Bool.false_ne_true)]
  by_cases hle : y ≤ x
  · rw [if_pos ((hb.le_iff ha).mpr hle), max_eq_left hle]
    exact ha
  · rw [if_neg (mt (hb.le_iff ha).mp hle), max_eq_right (le_of_not_ge hle)]
    exact hb

theorem clamp (ha : Denotes a x) (hlo : Denotes lo l) (hhi : Denotes hi u) (h : l ≤ u) :
    Denotes (clamp a lo hi) (max l (min x u)) := by
  unfold Single.clamp
  by_cases hbelow : x < l
  · rw [if_pos ((ha.lt_iff hlo).mpr hbelow), max_eq_left ((min_le_left _ _).trans hbelow.le)]
    exact hlo
  · rw [if_neg (mt (ha.lt_iff hlo).mp hbelow)]
    by_cases habove : u < x
    · rw [if_pos ((hhi.lt_iff ha).mpr habove), min_eq_right habove.le, max_eq_right h]
      exact hhi
    · rw [if_neg (mt (hhi.lt_iff ha).mp habove), min_eq_left (not_lt.mp habove),
        max_eq_right (not_lt.mp hbelow)]
      exact ha

/-- Rounding up is exact as long as the integers around the value are singles. -/
theorem ceilNat_eq_ceil (ha : Denotes a x) (hx : x < 2 ^ 24) : ceilNat a = ⌈x⌉₊ := by
  have hfloor : floorNat a = ⌊x⌋₊ := ha.floorNat_eq (hx.trans (by norm_num))
  have hsmall : ⌊x⌋₊ < 2 ^ 24 := (Nat.floor_lt' (by norm_num)).mpr (by exact_mod_cast hx)
  simp only [ceilNat, hfloor, (denotes_ofNat hsmall).lt_iff ha]
  split_ifs with hpart
  · have hceil : ⌈x⌉₊ = ⌊x⌋₊ + 1 := by
      refine le_antisymm (Nat.ceil_le_floor_add_one x) (Nat.lt_ceil.mpr hpart)
    rw [hceil, min_eq_left (by unfold ceiling; omega)]
  · exact le_antisymm (Nat.floor_le_ceil x) (Nat.ceil_le.mpr (not_lt.mp hpart))

/-- The pixel nearest to a value depends on nothing but the value. -/
theorem toPixel_congr (ha : Denotes a x) (hb : Denotes b x) (hx : |x| < 2 ^ 11) :
    toPixel a = toPixel b := by
  have hsum : |x + 1 / 2| < 2 ^ 127 := by
    obtain ⟨hlow, hhigh⟩ := abs_lt.mp hx
    exact abs_lt.mpr ⟨by linarith, by linarith⟩
  rw [toPixel, toPixel, ((ha.add denotes_half).denotes hsum).toUInt8_eq,
    ((hb.add denotes_half).denotes hsum).toUInt8_eq]

/-- A value close to a range of pixel values is turned into one of them. -/
theorem toPixel_within {v w : UInt8} (ha : Denotes a x) (hlow : v.toNat - 1 / 4 ≤ x)
    (hhigh : x ≤ w.toNat + 1 / 4) : v ≤ toPixel a ∧ toPixel a ≤ w := by
  have hv : (0 : ℚ) ≤ v.toNat := Nat.cast_nonneg _
  have hw : (w.toNat : ℚ) + 1 ≤ 2 ^ 8 := by exact_mod_cast w.toNat_lt
  obtain ⟨y, hy, hnear⟩ := (ha.add denotes_half).near (abs_lt.mpr ⟨by linarith, by linarith⟩)
  obtain ⟨hlow', hhigh'⟩ := abs_le.mp hnear
  have hfloor : (toPixel a).toNat = ⌊y⌋₊ := hy.toNat_toUInt8 (by linarith)
  rw [UInt8.le_iff_toNat_le, UInt8.le_iff_toNat_le, hfloor]
  refine ⟨Nat.le_floor (by linarith), Nat.lt_succ_iff.mp ((Nat.floor_lt (by linarith)).mpr ?_)⟩
  rw [Nat.cast_succ]
  linarith

end Denotes

/-- A single that is not below `l`; it may be infinite. -/
def AtLeast (a : Float32) (l : ℚ) : Prop :=
  a.toModel.unpack = .infinity .positive ∨ ∃ x, l ≤ x ∧ Denotes a x

theorem atLeast_of_le {a c : Float32} {l : ℚ} (hc : Denotes c l) (h : c ≤ a) : AtLeast a l := by
  have hle : decide (UnpackedFloat.le c.toModel.unpack a.toModel.unpack = true) = true := h
  rw [decide_eq_true_iff] at hle
  have hnever (u : UnpackedFloat) (hu : u = .notANumber ∨ u = .infinity .negative) :
      a.toModel.unpack ≠ u := by
    intro hparts
    obtain rfl | rfl := hu <;>
      obtain ⟨s, hc, -⟩ | ⟨s, m, e, hm, hc, -⟩ := value?_eq_some hc <;>
        rw [hparts, hc] at hle <;> cases hle
  cases hparts : a.toModel.unpack with
  | infinity s =>
      cases s with
      | negative => exact absurd hparts (hnever _ (.inr rfl))
      | positive => exact .inl hparts
  | notANumber => exact absurd hparts (hnever _ (.inl rfl))
  | zero s =>
      have ha : Denotes a 0 := by
        rw [Denotes, hparts]
        rfl
      exact .inr ⟨0, (hc.le_iff ha).mp h, ha⟩
  | finite s m e hm =>
      have ha : Denotes a (signed s (m * 2 ^ e)) := by
        rw [Denotes, hparts]
        rfl
      exact .inr ⟨_, (hc.le_iff ha).mp h, ha⟩

theorem atLeast_zero_of_le {a : Float32} (h : 0.0 ≤ a) : AtLeast a 0 :=
  atLeast_of_le denotes_zero h

/-- Not even an infinity is between two finite singles. -/
theorem exists_denotes_of_le {a b c : Float32} {l u : ℚ} (hc : Denotes c l) (hb : Denotes b u)
    (hca : c ≤ a) (hab : a ≤ b) : ∃ x, Denotes a x ∧ l ≤ x ∧ x ≤ u := by
  obtain hinfinite | ⟨x, hx, hdenotes⟩ := atLeast_of_le hc hca
  · have hle : decide (UnpackedFloat.le a.toModel.unpack b.toModel.unpack = true) = true := hab
    rw [decide_eq_true_iff, hinfinite] at hle
    obtain ⟨s, hparts, -⟩ | ⟨s, m, e, hm, hparts, -⟩ := value?_eq_some hb
    · rw [hparts] at hle
      cases hle
    · rw [hparts] at hle
      cases hle
  · exact ⟨x, hdenotes, hx, (hdenotes.le_iff hb).mp hab⟩

/-- Whatever is held between two finite singles ends there, be it infinite or not a number. -/
theorem exists_denotes_held (a : Float32) {b c : Float32} {l u : ℚ} (hc : Denotes c l)
    (hb : Denotes b u) (hlu : l ≤ u) :
    ∃ x, Denotes (larger (smaller a b) c) x ∧ l ≤ x ∧ x ≤ u := by
  have hsmaller : smaller a b = if a ≤ b then a else b := by
    rw [smaller, hb.isNaN_eq, if_neg Bool.false_ne_true]
  have hlarger (v : Float32) : larger v c = if c ≤ v then v else c := by
    rw [larger, hc.isNaN_eq, if_neg Bool.false_ne_true]
  rw [hsmaller]
  by_cases hab : a ≤ b
  · rw [if_pos hab, hlarger]
    by_cases hca : c ≤ a
    · rw [if_pos hca]
      exact exists_denotes_of_le hc hb hca hab
    · rw [if_neg hca]
      exact ⟨l, hc, le_rfl, hlu⟩
  · rw [if_neg hab, hlarger, if_pos ((hc.le_iff hb).mpr hlu)]
    exact ⟨u, hb, hlu, le_rfl⟩

theorem Delivers.atLeast {a : Float32} {l x : ℚ} (h : Delivers a x) (hl : Representable l)
    (hnonneg : 0 ≤ l) (hle : l ≤ x) : AtLeast a l := by
  have hnearest : l ≤ nearest x := by
    rcases hnonneg.trans hle |>.eq_or_lt with hzero | hpos
    · rw [← hzero, nearest_zero]
      exact hle.trans hzero.symm.le
    · exact le_nearest hl hpos hle
  rcases lt_or_ge (nearest x) (2 ^ 128) with hlt | hge
  · refine .inr ⟨nearest x, hnearest, h.finite ?_⟩
    rwa [abs_of_nonneg (hnonneg.trans hnearest)]
  · exact .inl (h.overflow hge)

theorem AtLeast.mul {a b : Float32} {y : ℚ} (ha : AtLeast a 0) (hb : Denotes b y) (hy : 0 < y) :
    AtLeast (a * b) 0 := by
  obtain hinfinite | ⟨x, hx, ha⟩ := ha
  · left
    have hproduct : (a * b).toModel.unpack = (Float32.Model.pack
        (UnpackedFloat.mul .binary32 a.toModel.unpack b.toModel.unpack)).unpack := rfl
    obtain ⟨t, -, rfl⟩ | ⟨t, n, f, hn, hparts, rfl⟩ := value?_eq_some hb
    · exact absurd hy (lt_irrefl 0)
    rw [hproduct, hinfinite, hparts]
    cases t
    · have hmagnitude : (0 : ℚ) < n * 2 ^ f := mul_pos (by exact_mod_cast hn) (two_zpow_pos f)
      rw [signed] at hy
      linarith
    · exact unpack_pack_infinity .positive
  · exact (ha.mul hb).atLeast denotes_zero.representable le_rfl (mul_nonneg hx hy.le)

theorem AtLeast.one_add {a : Float32} (ha : AtLeast a 0) : AtLeast (1.0 + a) 1 := by
  obtain hinfinite | ⟨x, hx, ha⟩ := ha
  · left
    have hsum : (1.0 + a).toModel.unpack = (Float32.Model.pack
        (UnpackedFloat.add .binary32 (1.0 : Float32).toModel.unpack a.toModel.unpack)).unpack := rfl
    have hone : (1.0 : Float32).toModel.unpack = .finite .positive 8388608 (-23) (by decide) := rfl
    rw [hsum, hinfinite, hone]
    exact unpack_pack_infinity .positive
  · exact (denotes_one.add ha).atLeast denotes_one.representable zero_le_one (by linarith)

theorem denotes_zero_div {a b : Float32} (ha : Denotes a 0) (hb : AtLeast b 1) :
    Denotes (a / b) 0 := by
  obtain hinfinite | ⟨y, hy, hb⟩ := hb
  · have hquotient : (a / b).toModel.unpack = (Float32.Model.pack
        (UnpackedFloat.div .binary32 a.toModel.unpack b.toModel.unpack)).unpack := rfl
    obtain ⟨s, hparts, -⟩ | ⟨s, m, e, hm, hparts, hvalue⟩ := value?_eq_some ha
    · rw [Denotes, hquotient, hparts, hinfinite]
      have hzero : UnpackedFloat.div .binary32 (.zero s) (.infinity .positive) =
        .zero (s / .positive) := rfl
      rw [hzero, unpack_pack_zero]
      rfl
    · have hmagnitude : (0 : ℚ) < m * 2 ^ e := mul_pos (by exact_mod_cast hm) (two_zpow_pos e)
      cases s <;> simp only [signed] at hvalue <;> linarith
  · exact (ha.div hb (by linarith)).exact (zero_div y) denotes_zero.representable (by norm_num)

end HopCodec.Single
