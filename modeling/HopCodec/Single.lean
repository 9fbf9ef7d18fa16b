/-
Single-precision rules shared by the density, resampling and colour maths.  Arithmetic is the
plain `Float32` arithmetic, operation by operation; this module fixes only what happens to a NaN
in a comparison and how a value becomes an integer.
-/

namespace HopCodec.Single

/-- The single nearest to a 64-bit count. -/
def ofNat (n : Nat) : Float32 :=
  n.toUInt64.toFloat32

/-- The distance from `1` to the next larger single. -/
def epsilon : Float32 :=
  1.0 / 8388608.0

/-- The larger of two values.  A NaN operand gives way to the other one. -/
def larger (a b : Float32) : Float32 :=
  if b.isNaN then a else if b ≤ a then a else b

/-- The smaller of two values.  A NaN operand gives way to the other one. -/
def smaller (a b : Float32) : Float32 :=
  if b.isNaN then a else if a ≤ b then a else b

/-- Move a value into `[lo, hi]`.  A NaN stays a NaN. -/
def clamp (x lo hi : Float32) : Float32 :=
  if x < lo then lo else if hi < x then hi else x

/-- The integer part of a value, held inside the 64-bit range.  A NaN counts as zero. -/
def floorNat (x : Float32) : Nat :=
  x.toUInt64.toNat

/-- The largest value an integer conversion returns. -/
def ceiling : Nat :=
  (1 <<< 64) - 1

/-- The least integer not below a value, held inside the 64-bit range. -/
def ceilNat (x : Float32) : Nat :=
  let n := floorNat x
  if ofNat n < x then min (n + 1) ceiling else n

/-- The nearest integer, halves away from zero, held inside the 64-bit range. -/
def roundNat (x : Float32) : Nat :=
  let n := floorNat x
  if 0.5 ≤ x - ofNat n then min (n + 1) ceiling else n

/-- The pixel value nearest to `x`, halves upward. -/
def toPixel (x : Float32) : UInt8 :=
  (x + 0.5).toUInt8

end HopCodec.Single
