/-
The sweep for the nearest hops on the machine.  The distinct values of a ladder are collected in
nine places of which the first ones are in use; a pointer climbs them while the original values
rise.
-/
import HopCodec.Ladder.Nearest
import HopCodec.Machine.Word

namespace HopCodec.Machine

/-- The distinct values found so far, each with the hop that stands for it. -/
structure Distinct where
  rungs : Array Ladder.Rung
  count : Nat

namespace Distinct

def none : Distinct :=
  ⟨Array.replicate 9 ⟨0, .null⟩, 0⟩

/-- Put a new value behind the others. -/
def push (d : Distinct) (r : Ladder.Rung) : Run Distinct := do
  return ⟨← store d.rungs d.count r, ← add d.count 1⟩

/-- Take in the value of a hop.  Of two hops with the same value, the one with priority stays. -/
def take (ladder : Bytes) (d : Distinct) (hop : Hop) : Run Distinct := do
  let value ← fetch ladder hop.index
  if 0 < d.count then
    let last ← fetch d.rungs (← sub d.count 1)
    if last.value = value then
      if hop.rank < last.hop.rank then
        return { d with rungs := ← store d.rungs (← sub d.count 1) { last with hop } }
      else return d
    else d.push ⟨value, hop⟩
  else d.push ⟨value, hop⟩

/-- Climb while the next value is not above the original. -/
def climb (d : Distinct) (original : UInt8) : (fuel : Nat) → (j : Nat) → Run Nat
  | 0, _ => .error (.trap .endlessLoop)
  | fuel + 1, j => do
      let next ← add j 1
      if next < d.count then
        if (← fetch d.rungs next).value ≤ original then climb d original fuel next
        else return j
      else return j

/-- Choose between the value that the pointer has reached and the next one. -/
def choose (d : Distinct) (original : UInt8) (j : Nat) : Run Hop := do
  let lo ← fetch d.rungs j
  if original ≤ lo.value then return lo.hop
  if (← add j 1) = d.count then return lo.hop
  let hi ← fetch d.rungs (← add j 1)
  let below ← sub original.toNat lo.value.toNat
  let above ← sub hi.value.toNat original.toNat
  if below ≠ above then
    if below < above then return lo.hop else return hi.hop
  else if lo.hop.rank < hi.hop.rank then return lo.hop
  else return hi.hop

/-- Answer an original value, climbing from where the pointer is. -/
def answer (d : Distinct) (original : Nat) (s : Nat × Array (Nat × Hop)) :
    Run (Nat × Array (Nat × Hop)) := do
  let j ← d.climb (UInt8.ofNat original) 9 s.1
  return (j, s.2.push (original, ← d.choose (UInt8.ofNat original) j))

end Distinct

/-- Every original value in rising order with the hop that it is answered with. -/
def fillBestHops (ladder : Bytes) : Run (Array (Nat × Hop)) := do
  let d ← Hop.all.foldlM (Distinct.take ladder) Distinct.none
  let (_, calls) ← loop d.answer 256 (0, #[])
  return calls

end HopCodec.Machine
