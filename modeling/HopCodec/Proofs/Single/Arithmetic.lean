/-
Single-precision arithmetic in terms of rationals.  An operation delivers the single nearest to the
exact result, comparisons compare the values, and conversions to integers cut the fraction off.
-/
import HopCodec.Single
import HopCodec.Proofs.Single.Packing

namespace HopCodec.Single

open Float.Model Float.Model.UnpackedFloat

/-- A single is finite and stands for `x`. -/
def Denotes (a : Float32) (x : ℚ) : Prop :=
  value? a.toModel.unpack = some x

/-- What an operation with the exact result `x` delivers: the nearest single, or an infinity. -/
structure Delivers (a : Float32) (x : ℚ) : Prop where
  finite : |nearest x| < 2 ^ 128 → Denotes a (nearest x)
  overflow : 2 ^ 128 ≤ nearest x → a.toModel.unpack = .infinity .positive
  underflow : nearest x ≤ -2 ^ 128 → a.toModel.unpack = .infinity .negative

theorem canonical (a : Float32) : Canonical a.toModel.unpack :=
  canonical_unpack _

theorem two_zpow_le {e f : ℤ} (h : e ≤ f) : (2 : ℚ) ^ e ≤ 2 ^ f :=
  zpow_le_zpow_right₀ (by norm_num) h

theorem abs_signed (s : Sign) {x : ℚ} (h : 0 ≤ x) : |signed s x| = x := by
  cases s
  · rw [signed, abs_neg, abs_of_nonneg h]
  · exact abs_of_nonneg h

/-- Below the range of infinities. -/
theorem magnitude_lt {s : Sign} {m : ℕ} {e : ℤ} {hm : 0 < m} (h : Canonical (.finite s m e hm))
    (he : e ≤ greatestExponent) : (m * 2 ^ e : ℚ) < 2 ^ 128 := by
  have hm' : (m : ℚ) < 2 ^ 24 := by exact_mod_cast h.1
  calc (m * 2 ^ e : ℚ) < 2 ^ 24 * 2 ^ e := mul_lt_mul_of_pos_right hm' (two_zpow_pos e)
    _ ≤ 2 ^ 24 * 2 ^ (104 : ℤ) := mul_le_mul_of_nonneg_left (two_zpow_le he) (by norm_num)
    _ = 2 ^ 128 := by norm_num

theorem le_magnitude {s : Sign} {m : ℕ} {e : ℤ} {hm : 0 < m} (h : Canonical (.finite s m e hm))
    (he : greatestExponent < e) : (2 ^ 128 : ℚ) ≤ m * 2 ^ e := by
  have hbits : (2 ^ 23 : ℚ) ≤ m := by
    exact_mod_cast h.2.2.resolve_right (by unfold greatestExponent at he; omega)
  calc (2 ^ 128 : ℚ) = 2 ^ 23 * 2 ^ (105 : ℤ) := by norm_num
    _ ≤ m * 2 ^ e := mul_le_mul hbits (two_zpow_le he) (two_zpow_pos _).le (by positivity)

theorem delivers_pack {x : ℚ} {u : UnpackedFloat} (h : RoundsTo x u) :
    Delivers (.ofModel (.pack u)) x := by
  have hcanonical := h.canonical
  have hvalue := h.value
  obtain ⟨s, rfl, hzero⟩ | ⟨s, m, e, hm, rfl, hfinite⟩ := value?_eq_some hvalue
  · refine ⟨fun _ => ?_, fun hle => ?_, fun hle => ?_⟩
    · rw [Denotes, unpack_pack_zero, hzero]
      rfl
    · rw [hzero] at hle
      norm_num at hle
    · rw [hzero] at hle
      norm_num at hle
  have hunit : (0 : ℚ) < m * 2 ^ e := mul_pos (by exact_mod_cast hm) (two_zpow_pos e)
  have hsize : |nearest x| = m * 2 ^ e := by rw [hfinite, abs_signed s hunit.le]
  rcases le_or_gt e greatestExponent with hle | hgt
  · have hunpack : (Float32.Model.pack (.finite s m e hm)).unpack = .finite s m e hm :=
      unpack_pack hcanonical hle
    obtain ⟨habove, hbelow⟩ := abs_lt.mp (hsize.trans_lt (magnitude_lt hcanonical hle))
    refine ⟨fun _ => ?_, fun hle => absurd hbelow (not_lt.mpr hle),
      fun hle => absurd habove (not_lt.mpr hle)⟩
    rw [Denotes, hunpack, hvalue]
  · have hunpack : (Float32.Model.pack (.finite s m e hm)).unpack = .infinity s :=
      @unpack_pack_overflow s m e hm hgt
    have hlarge : 2 ^ 128 ≤ |nearest x| := (le_magnitude hcanonical hgt).trans_eq hsize.symm
    refine ⟨fun hlt => absurd hlt (not_lt.mpr hlarge), fun hle => ?_, fun hle => ?_⟩
    · rw [hfinite] at hle
      cases s
      · rw [signed] at hle
        linarith
      · exact hunpack
    · rw [hfinite] at hle
      cases s
      · exact hunpack
      · rw [signed] at hle
        linarith

namespace Delivers

variable {a : Float32} {x : ℚ}

/-- Nothing up to half of the range overflows. -/
theorem denotes (h : Delivers a x) (hx : |x| < 2 ^ 127) : Denotes a (nearest x) := by
  refine h.finite (lt_of_le_of_lt (abs_nearest_le x) ?_)
  linarith

/-- An exact result that is a single is delivered as it is. -/
theorem exact {y : ℚ} (h : Delivers a x) (heq : x = y) (hr : Representable y)
    (hy : |y| < 2 ^ 127) : Denotes a y := by
  subst heq
  have hnearest := h.denotes hy
  rwa [nearest_of_representable hr] at hnearest

end Delivers

namespace Denotes

variable {a b : Float32} {x y : ℚ}

theorem unique (h : Denotes a x) (h' : Denotes a y) : x = y :=
  Option.some.inj (h.symm.trans h')

theorem representable (h : Denotes a x) : Representable x :=
  representable_of_canonical (canonical a) h

theorem add (ha : Denotes a x) (hb : Denotes b y) : Delivers (a + b) (x + y) :=
  delivers_pack (roundsTo_add (canonical a) (canonical b) ha hb)

theorem sub (ha : Denotes a x) (hb : Denotes b y) : Delivers (a - b) (x - y) :=
  delivers_pack (roundsTo_sub (canonical a) (canonical b) ha hb)

theorem mul (ha : Denotes a x) (hb : Denotes b y) : Delivers (a * b) (x * y) :=
  delivers_pack (roundsTo_mul (canonical a) (canonical b) ha hb)

theorem div (ha : Denotes a x) (hb : Denotes b y) (hne : y ≠ 0) : Delivers (a / b) (x / y) :=
  delivers_pack (roundsTo_div ha hb hne)

theorem compare (ha : Denotes a x) (hb : Denotes b y) :
    UnpackedFloat.compare a.toModel.unpack b.toModel.unpack = some (Ord.compare x y) :=
  compare_eq (canonical a) (canonical b) ha hb

theorem lt_iff (ha : Denotes a x) (hb : Denotes b y) : a < b ↔ x < y := by
  have hlt : a < b ↔ decide (UnpackedFloat.lt a.toModel.unpack b.toModel.unpack = true) = true :=
    .rfl
  rw [hlt, decide_eq_true_iff, UnpackedFloat.lt, ha.compare hb, beq_iff_eq, Option.some.injEq,
    compare_lt_iff_lt]

theorem le_iff (ha : Denotes a x) (hb : Denotes b y) : a ≤ b ↔ x ≤ y := by
  have hle : a ≤ b ↔ decide (UnpackedFloat.le a.toModel.unpack b.toModel.unpack = true) = true :=
    .rfl
  rw [hle, decide_eq_true_iff, UnpackedFloat.le, ha.compare hb, Option.any_some,
    Ordering.isLE_iff_ne_gt, compare_gt_iff_gt, not_lt]

theorem isNaN_eq (ha : Denotes a x) : a.isNaN = false := by
  show a.toModel.unpack.isNaN = false
  obtain ⟨s, hu, -⟩ | ⟨s, m, e, hm, hu, -⟩ := value?_eq_some ha <;> rw [hu] <;> rfl

end Denotes

/-- Integers of up to 24 bits are singles. -/
theorem denotes_integer {n : ℕ} (h : n < 2 ^ 24) :
    Denotes (.ofModel (.pack (UnpackedFloat.ofNat .binary32 n))) n := by
  have hdelivers := delivers_pack (roundsTo_normalize n 0 .positive)
  rw [zpow_zero, mul_one, Int.cast_natCast] at hdelivers
  have hcast : (n : ℚ) < 2 ^ 24 := by exact_mod_cast h
  have hrepresentable : Representable n :=
    representable_intCast (n := n) (by rw [Nat.abs_cast]; exact_mod_cast h)
  refine hdelivers.exact rfl hrepresentable ?_
  rw [abs_of_nonneg (Nat.cast_nonneg n)]
  linarith

theorem denotes_ofNat {n : ℕ} (h : n < 2 ^ 24) : Denotes (ofNat n) n := by
  have hword : n.toUInt64.toNat = n := UInt64.toNat_ofNat_of_lt (by
    have hsize : UInt64.size = 2 ^ 64 := rfl
    omega)
  have hdenotes : Denotes (ofNat n) (n.toUInt64.toNat : ℕ) := denotes_integer (hword.symm ▸ h)
  rwa [hword] at hdenotes

theorem denotes_toFloat32 (b : UInt8) : Denotes b.toFloat32 b.toNat :=
  denotes_integer (b.toNat_lt.trans (by norm_num))

/-- The integer part of a magnitude is its mantissa without the places behind the point. -/
theorem roundToInt_eq (s : Sign) (m : ℕ) (e : ℤ) :
    roundToInt s m e = s.apply ⌊(m * 2 ^ e : ℚ)⌋ := by
  obtain ⟨k, hdecrease, hk, hvalue⟩ := decreaseExponent_eq m e 0
  simp only [roundToInt, hdecrease]
  obtain ⟨j, hj⟩ : ∃ j : ℕ, e - k = -j := ⟨(-(e - k)).toNat, by omega⟩
  rw [hj, shiftToExponent_of_le (by omega), show (0 - (-j : ℤ)).toNat = j by omega]
  have hshifted := ((represents_exact (m * 2 ^ k)).shiftRight j).floor
  rw [hj, zpow_neg, zpow_natCast, ← div_eq_mul_inv] at hvalue
  rw [← hvalue, hshifted]

/-- Cutting the fraction off. -/
theorem toNat_toInt {u : UnpackedFloat} {x : ℚ} (h : value? u = some x) (lo hi : ℤ) :
    (u.toInt lo hi).toNat = ⌊x⌋₊ := by
  obtain ⟨s, rfl, rfl⟩ | ⟨s, m, e, hm, rfl, rfl⟩ := value?_eq_some h
  · simp [UnpackedFloat.toInt]
  · have hnonneg : (0 : ℚ) ≤ m * 2 ^ e := mul_nonneg (Nat.cast_nonneg m) (two_zpow_pos e).le
    rw [UnpackedFloat.toInt, roundToInt_eq]
    cases s
    · rw [signed, Nat.floor_of_nonpos (by linarith), Sign.apply]
      have hfloor := Int.floor_nonneg.mpr hnonneg
      omega
    · rfl

theorem Denotes.floorNat_eq {a : Float32} {x : ℚ} (h : Denotes a x) (hx : x < 2 ^ 64) :
    floorNat a = ⌊x⌋₊ := by
  have hclamp : floorNat a =
      (UInt64.ofNatClamp (a.toModel.unpack.toInt 0 (UInt64.size - 1)).toNat).toNat := rfl
  have hfloor : ⌊x⌋₊ < 2 ^ 64 := (Nat.floor_lt' (by norm_num)).mpr (by exact_mod_cast hx)
  rw [hclamp, toNat_toInt h, UInt64.ofNatClamp, dif_pos (show ⌊x⌋₊ < UInt64.size from hfloor)]
  rfl

/-- Pixel values beyond the range of bytes are cut off. -/
theorem Denotes.toUInt8_eq {a : Float32} {x : ℚ} (h : Denotes a x) :
    a.toUInt8 = UInt8.ofNatClamp ⌊x⌋₊ := by
  have hclamp : a.toUInt8 =
      UInt8.ofNatClamp (a.toModel.unpack.toInt 0 (UInt8.size - 1)).toNat := rfl
  rw [hclamp, toNat_toInt h]

theorem Denotes.toNat_toUInt8 {a : Float32} {x : ℚ} (h : Denotes a x) (hx : x < 2 ^ 8) :
    a.toUInt8.toNat = ⌊x⌋₊ := by
  have hfloor : ⌊x⌋₊ < 2 ^ 8 := (Nat.floor_lt' (by norm_num)).mpr (by exact_mod_cast hx)
  rw [h.toUInt8_eq, UInt8.ofNatClamp, dif_pos (show ⌊x⌋₊ < UInt8.size from hfloor)]
  rfl

end HopCodec.Single
