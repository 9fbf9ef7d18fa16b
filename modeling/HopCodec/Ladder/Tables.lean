/-
The tables that a predictor reads: a ladder and a nearest-hop row for every ratio, step and
predicted value.  Predictors take any tables; `Tables.build` gives those of the codec, each row
worked out when it is first asked for.
-/
import HopCodec.Ladder.Nearest
import HopCodec.Memo

namespace HopCodec

/-- What a predictor reads: the ladder around a predicted value, and the hop it takes to come
closest to a target. -/
structure Tables where
  ladder : (ratio step : Nat) → (predicted : UInt8) → Ladder
  nearest : (ratio step : Nat) → (target predicted : UInt8) → Hop

namespace Tables

/-- The ladder around one predicted value with its answers for all targets. -/
structure Row where
  ladder : Ladder
  nearest : Array Hop

namespace Row

def ofLadder (l : Ladder) : Row :=
  ⟨l, l.sweep.toArray⟩

def hop (r : Row) (target : UInt8) : Hop :=
  r.nearest.getD target.toNat .null

end Row

/-- Steps below this bound are kept on the shelf. -/
def stepBound : Nat := 20

/-- Ratios below this bound are kept on the shelf. -/
def ratioBound : Nat := 41

/-- The row that the model defines. -/
def modelRow (pow : Power) (ratio step predicted : Nat) : Row :=
  Row.ofLadder (Ladder.around pow ratio step (UInt8.ofNat predicted))

/-- The rows of one ratio and step, indexed by predicted value. -/
def modelSheet (pow : Power) (slot : Nat) : Memo Row :=
  Memo.tabulate 256 (modelRow pow (slot / stepBound) (slot % stepBound))

/-- The row of a shelf.  Steps outside the shelf are worked out anew. -/
def shelfRow (pow : Power) (shelf : Memo (Memo Row)) (ratio step : Nat) (predicted : UInt8) :
    Row :=
  if step < stepBound then
    (shelf.get (ratio * stepBound + step) (modelSheet pow)).get predicted.toNat
      (modelRow pow ratio step)
  else modelRow pow ratio step predicted.toNat

/-- The tables of the codec over a power function. -/
def build (pow : Power) : Tables :=
  let shelf := Memo.tabulate (ratioBound * stepBound) (modelSheet pow)
  { ladder := fun ratio step predicted => (shelfRow pow shelf ratio step predicted).ladder
    nearest := fun ratio step target predicted =>
      (shelfRow pow shelf ratio step predicted).hop target }

theorem shelfRow_tabulate (pow : Power) (n ratio step : Nat) (predicted : UInt8) :
    shelfRow pow (Memo.tabulate n (modelSheet pow)) ratio step predicted =
      modelRow pow ratio step predicted.toNat := by
  unfold shelfRow
  split
  · next h =>
      have hdiv : (ratio * stepBound + step) / stepBound = ratio := by
        unfold stepBound at h ⊢
        omega
      have hmod : (ratio * stepBound + step) % stepBound = step := by
        unfold stepBound at h ⊢
        omega
      simp [modelSheet, hdiv, hmod]
  · rfl

theorem build_ladder (pow : Power) (ratio step : Nat) (predicted : UInt8) :
    (build pow).ladder ratio step predicted = Ladder.around pow ratio step predicted := by
  simp [build, shelfRow_tabulate, modelRow, Row.ofLadder]

theorem build_nearest (pow : Power) (ratio step : Nat) (target predicted : UInt8) :
    (build pow).nearest ratio step target predicted =
      (Ladder.around pow ratio step predicted).sweep.toArray.getD target.toNat .null := by
  simp [build, shelfRow_tabulate, modelRow, Row.ofLadder, Row.hop]

end Tables

end HopCodec
