/-
Elastic cells.  The pixels along an axis are split into one cell per sample; cell widths grow
linearly from the density at one edge to the density at the other.
-/
import HopCodec.Block.Shape

namespace HopCodec

open Single

/-- The width wanted for the `k`-th of `side` cells. -/
def cellWeight (side : Nat) (first last : Float32) (k : Nat) : Float32 :=
  let t := (ofNat k + 0.5) / ofNat side
  larger (first + (last - first) * t) epsilon

/-- Place the inner boundaries one after another.  Each lies where the weights so far put it, but
behind the one before it (`previous`) and with a pixel left for each of the `left` cells still to
come. -/
def placeBoundaries (len : Nat) (total acc : Float32) (previous : Nat) :
    (left : Nat) → List Float32 → List Nat
  | 0, _ => [len]
  | _, [] => [len]
  | left + 1, weight :: weights =>
      let acc := acc + weight
      let ideal := roundNat (ofNat len * acc / total)
      let boundary := min (max ideal (previous + 1)) (len - (left + 1))
      boundary :: placeBoundaries len total acc boundary left weights

/-- The `side + 1` cell boundaries from `0` to `len`. -/
def elasticCells (len side : Nat) (first last : Float32) : List Nat :=
  let weights := (List.range side).map (cellWeight side first last)
  let total := weights.foldl (· + ·) 0.0
  0 :: placeBoundaries len total 0.0 0 (side - 1) weights

/-- The mean density at the start and at the end of an axis. -/
def Axis.endDensities (a : Axis) (direction : Direction) : Float32 × Float32 :=
  let (near, far) := direction.edges a.density
  ((near.1 + far.1) / 2.0, (near.2 + far.2) / 2.0)

/-- The cell boundaries of an axis. -/
def Axis.cells (a : Axis) (direction : Direction) : List Nat :=
  let (first, last) := a.endDensities direction
  elasticCells a.length a.samples first last

/-- The cell boundaries of a block in both directions. -/
structure BlockCells where
  x : List Nat
  y : List Nat
deriving DecidableEq, Repr

namespace BlockCells

def ofBlock (b : Block) : BlockCells :=
  ⟨b.x.cells .horizontal, b.y.cells .vertical⟩

def columns (c : BlockCells) : Nat :=
  c.x.length - 1

def rows (c : BlockCells) : Nat :=
  c.y.length - 1

end BlockCells

end HopCodec
