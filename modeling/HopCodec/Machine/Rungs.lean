/-
Building the tables on the machine.  The null hop of a ladder keeps the prediction; from there the
ladder is filled outward, one rung on either side at a time, in 32-bit integers that are held
between the least and the largest value only at the end.  The ladders of all predicted values,
ratios and steps lie one behind the other, and the nearest hops are filled from them.
-/
import HopCodec.Machine.Filling

namespace HopCodec.Machine

/-- A number that a 32-bit integer with a sign holds. -/
def fitInt (n : Int) : Run Int :=
  if -0x80000000 ≤ n ∧ n < 0x80000000 then .ok n else .error (.trap .overflow)

/-- Cut a single to a 32-bit integer, toward zero.  Values beyond the integers, and what is not a
number, are not moved to the nearest end of the range: they trap. -/
def truncate (x : Float32) : Run Int :=
  if -2147483648.0 ≤ x ∧ x < 2147483648.0 then
    .ok (if 0.0 ≤ x then Single.floorNat x else -Single.floorNat (-x))
  else .error (.trap .overflow)

/-- Reconstructed values are never zero. -/
def clampValue (n : Int) : UInt8 :=
  UInt8.ofNat (max 1 (min n 255)).toNat

/-- A ladder in the making, and the factors of the next rung on either side. -/
structure Widening where
  ladder : Bytes
  upward : Float32
  downward : Float32

namespace Widening

/-- Lay the rungs `k` places beyond the first ones. -/
def lay (step predicted : UInt8) (up down : Float32) (k : Nat) (w : Widening) : Run Widening := do
  let above ← truncate (Single.ofNat step.toNat * w.upward)
  let below ← truncate (Single.ofNat step.toNat * w.downward)
  let value ← fitInt (predicted.toNat + above)
  let ladder ← store w.ladder (← add Hop.pos1.index k) (clampValue value)
  let value ← fitInt (predicted.toNat - below)
  let ladder ← store ladder (← sub Hop.neg1.index k) (clampValue value)
  return ⟨ladder, w.upward * up, w.downward * down⟩

end Widening

/-- Fill the ladder around a predicted value. -/
def fillLadder (pow : Power) (predicted ratio step : UInt8) (ladder : Bytes) : Run Bytes := do
  let limit := Single.ofNat ratio.toNat / 10.0
  let up := Ladder.growth pow (← sub 255 predicted.toNat) step.toNat limit
  let down := Ladder.growth pow predicted.toNat step.toNat limit
  let ladder ← store ladder Hop.null.index (clampValue predicted.toNat)
  let w ← loop (Widening.lay step predicted up down) 4 ⟨ladder, 1.0, 1.0⟩
  return w.ladder

namespace Ladders

/-- Fill the ladder of the `r`-th ratio and the `s`-th step behind those before it. -/
def appendLadder (pow : Power) (predicted r s : Nat) (rungs : Bytes) : Run Bytes := do
  let ratio ← fit 256 (Predictor.ratioMin + r)
  let step ← fit 256 (1 + s)
  let ladder ← fillLadder pow (UInt8.ofNat predicted) (UInt8.ofNat ratio) (UInt8.ofNat step)
    (Array.replicate 9 0)
  return rungs ++ ladder

/-- Fill the ladders around every predicted value. -/
def fillRungs (pow : Power) : Run Bytes :=
  loop (fun predicted => loop (fun r => loop (appendLadder pow predicted r) stepCount) ratioCount) 256
    #[]

/-- Build the tables.  What is fixed about them has to fit together. -/
def build (pow : Power) : Run Ladders := do
  ensure (0.0 < Ladder.reachShare ∧ Ladder.reachShare ≤ 1.0)
  ensure (10 ≤ Predictor.ratioMin ∧ Predictor.ratioMin ≤ Predictor.ratioMax)
  ensure (1 ≤ stepCount)
  let rungs ← fillRungs pow
  return ⟨rungs, ← fill rungs⟩

end Ladders

end HopCodec.Machine
