/-
Ladders: the nine pixel values that the hops reach around a predicted value.  The first rung on
either side is one step away, and each further rung is farther by a growth factor that depends on
the room left on that side.  The power function behind the growth factor is a parameter, since no
rule of the codec rests on its accuracy.
-/
import HopCodec.Hop
import HopCodec.Single

namespace HopCodec

/-- A power function on singles: `pow base exponent`. -/
abbrev Power := Float32 → Float32 → Float32

/-- The value each hop reconstructs to. -/
abbrev Ladder := HopMap UInt8

namespace Ladder

open Single

/-- A ladder never descends as the hop index grows. -/
def Ordered (l : Ladder) : Prop :=
  ∀ g h : Hop, g.index ≤ h.index → l g ≤ l h

/-- The share of the room on a side that the outermost rung may use. -/
def reachShare : Float32 := 0.8

/-- The exponent that spreads the reach over the growing rungs. -/
def reachExponent : Float32 := 1.0 / 3.0

/-- The growth factor on a side with `room` values left, between `1` and `limit`. -/
def growth (pow : Power) (room step : Nat) (limit : Float32) : Float32 :=
  larger (smaller (pow (reachShare * ofNat room / ofNat step) reachExponent) limit) 1.0

/-- The factor between the first rung and the one `k` places farther out. -/
def spread (factor : Float32) : Nat → Float32
  | 0 => 1.0
  | k + 1 => spread factor k * factor

/-- The distance of a rung from the prediction, in whole pixel values. -/
def rung (step : Nat) (factor : Float32) (k : Nat) : Nat :=
  floorNat (ofNat step * spread factor k)

/-- Reconstructed values are never zero. -/
def toValue (n : Nat) : UInt8 :=
  UInt8.ofNat (min (max n 1) 255)

/-- The ladder around a predicted value.  The ratio is ten times the largest growth factor. -/
def around (pow : Power) (ratio step : Nat) (predicted : UInt8) : Ladder :=
  let p := predicted.toNat
  let limit := ofNat ratio / 10.0
  let up := growth pow (255 - p) step limit
  let down := growth pow p step limit
  HopMap.ofFn fun h =>
    if h = .null then toValue p
    else if Hop.null.index < h.index then toValue (p + rung step up (h.magnitude - 1))
    else toValue (p - rung step down (h.magnitude - 1))

theorem around_null (pow : Power) (ratio step : Nat) (predicted : UInt8) :
    around pow ratio step predicted .null = toValue predicted.toNat := by
  simp [around]

end Ladder

end HopCodec
