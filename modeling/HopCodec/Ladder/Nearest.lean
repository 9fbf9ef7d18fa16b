/-
Which hop comes closest to a target value.  `nearest` searches all nine hops; `sweep` answers
for all 256 targets in one pass over the distinct values of the ladder.
-/
import HopCodec.Ladder

namespace HopCodec

namespace Ladder

def distance (a b : UInt8) : Nat :=
  max a.toNat b.toNat - min a.toNat b.toNat

/-- The first hop in priority order among those that come closest to `target`. -/
def nearest (l : Ladder) (target : UInt8) : Hop :=
  Hop.priority.foldl
    (fun best h => if distance (l h) target < distance (l best) target then h else best)
    .null

/-- A value of the ladder with the hop that stands for it. -/
structure Rung where
  value : UInt8
  hop : Hop
deriving DecidableEq, Repr

/-- Of two rungs, the one whose hop has priority. -/
def Rung.prior (r s : Rung) : Rung :=
  if r.hop.rank < s.hop.rank then r else s

/-- Merge neighbouring rungs of one value, keeping the hop that has priority. -/
def mergeEqual : List Rung → List Rung
  | [] => []
  | r :: rest =>
      match mergeEqual rest with
      | [] => [r]
      | s :: more => if r.value = s.value then r.prior s :: more else r :: s :: more

/-- The distinct values of the ladder in rising order. -/
def distinct (l : Ladder) : List Rung :=
  mergeEqual (Hop.all.map fun h => ⟨l h, h⟩)

/-- Climb to the last rung that is not above `target`. -/
def climb (target : UInt8) (lo : Rung) : List Rung → Rung × List Rung
  | [] => (lo, [])
  | hi :: rest => if hi.value ≤ target then climb target hi rest else (lo, hi :: rest)

/-- Choose between the rung reached and the next one above it. -/
def choose (target : UInt8) (lo : Rung) : List Rung → Hop
  | [] => lo.hop
  | hi :: _ =>
      if target ≤ lo.value then lo.hop
      else
        let below := distance lo.value target
        let above := distance hi.value target
        if below < above then lo.hop
        else if above < below then hi.hop
        else (lo.prior hi).hop

/-- Answer a rising list of targets, climbing as they rise. -/
def sweepFrom (lo : Rung) (above : List Rung) : List UInt8 → List Hop
  | [] => []
  | target :: rest =>
      let (lo, above) := climb target lo above
      choose target lo above :: sweepFrom lo above rest

/-- Every pixel value in rising order. -/
def allValues : List UInt8 :=
  (List.range 256).map UInt8.ofNat

/-- The hop for every target from `0` to `255`. -/
def sweep (l : Ladder) : List Hop :=
  match distinct l with
  | [] => []
  | lo :: above => sweepFrom lo above allValues

end Ladder

end HopCodec
