/-
Elastic cells, down- and upsampling on the machine.
-/
import HopCodec.Block.Resample
import HopCodec.Machine.Grid

namespace HopCodec.Machine

open Single

/-- Place one inner boundary for each weight of a list.  The `k`-th of `side` cells needs a pixel
left for each cell behind it. -/
def placeCells (len side : Nat) (total : Float32) :
    (k : Nat) → (acc : Float32) → List Float32 → Array Nat → Run (Array Nat)
  | _, _, [], bounds => .ok (bounds.push len)
  | k, acc, weight :: weights, bounds => do
      let acc := acc + weight
      let ideal := roundNat (ofNat len * acc / total)
      let behind ← add (← fetch bounds k) 1
      let limit ← sub len (← sub (← sub side 1) k)
      placeCells len side total (k + 1) acc weights (bounds.push (min (max ideal behind) limit))

/-- The `side + 1` cell boundaries from `0` to `len`.  Their number is computed to make room for
them. -/
def elasticCells (len side : Nat) (first last : Float32) : Run (Array Nat) := do
  ensure (1 ≤ side ∧ side ≤ len)
  let weights := (List.range side).map (cellWeight side first last)
  let total := weights.foldl (· + ·) 0.0
  let _ ← add side 1
  placeCells len side total 0 0.0 (weights.take (← sub side 1)) #[0]

def axisCells (a : Axis) (direction : Direction) : Run (Array Nat) := do
  let (first, last) := a.endDensities direction
  elasticCells (← axisLength a) a.samples first last

/-- The cell boundaries of a block in both directions. -/
structure Cells where
  x : Array Nat
  y : Array Nat

namespace Cells

def ofBlock (b : Block) : Run Cells := do
  return ⟨← axisCells b.x .horizontal, ← axisCells b.y .vertical⟩

def columns (c : Cells) : Run Nat :=
  sub c.x.size 1

def rows (c : Cells) : Run Nat :=
  sub c.y.size 1

end Cells

/-- The sum of the pixels `[left, right)` of one row. -/
def rowSum (src : Bytes) (stride left right y : Nat) : Run Nat := do
  let row ← slice src (← mul y stride) src.size
  let part ← slice row left right
  part.toList.foldlM (fun sum pixel => add sum pixel.toNat) 0

/-- The rounded mean of the pixels of `[left, right) × [top, bottom)`. -/
def cellMean (src : Bytes) (stride left right top bottom : Nat) : Run UInt8 := do
  let sum ← loop (fun i sum => do add sum (← rowSum src stride left right (← add top i)))
    (bottom - top) 0
  let n ← mul (← sub bottom top) (← sub right left)
  return UInt8.ofNat (← div (← add sum (n / 2)) n)

/-- Put the mean of the cell in one column and row into its place. -/
def downsampleCell (c : Cells) (src : Bytes) (stride columns i j : Nat) (dst : Bytes) :
    Run Bytes := do
  let left ← fetch c.x i
  let right ← fetch c.x (← add i 1)
  let top ← fetch c.y j
  let bottom ← fetch c.y (← add j 1)
  let mean ← cellMean src stride left right top bottom
  store dst (← add (← mul j columns) i) mean

def downsample (c : Cells) (src : Bytes) (stride : Nat) (dst : Bytes) : Run Bytes := do
  let columns ← c.columns
  let rows ← c.rows
  loop (fun j => loop (fun i => downsampleCell c src stride columns i j) columns) rows dst

/-- The middle of every cell. -/
def centres : List Nat → Run (List Float32)
  | a :: b :: rest => do
      let sum ← add a b
      return ofNat sum / 2.0 :: (← centres (b :: rest))
  | _ => .ok []

/-- The last centre but one that is not beyond `position`, from `i` on. -/
def lowerCentre (centres : Array Float32) (position : Float32) : (fuel i : Nat) → Run Nat
  | 0, _ => .error (.trap .endlessLoop)
  | fuel + 1, i => do
      if (← add i 2) < centres.size then
        if (← fetch centres (← add i 1)) ≤ position then
          lowerCentre centres position fuel (← add i 1)
        else return i
      else return i

/-- The tap of pixel `p`.  A single sample serves all pixels. -/
def tapOfPixel (side : Nat) (centres : Array Float32) (p : Nat) : Run Tap := do
  if side = 1 then return ⟨0, 0, 0.0⟩
  let position := ofNat p + 0.5
  let i ← lowerCentre centres position (side + 1) 0
  let next ← add i 1
  let weight ← clamp ((position - (← fetch centres i)) /
    ((← fetch centres next) - (← fetch centres i))) 0.0 1.0
  return ⟨i, next, weight⟩

/-- The taps of all pixels along an axis with the given cell boundaries. -/
def taps (bounds : Array Nat) : Run (Array Tap) := do
  let side ← sub bounds.size 1
  let len ← fetch bounds side
  let centres ← centres bounds.toList
  let taps ← (List.range len).mapM (tapOfPixel side centres.toArray)
  return taps.toArray

def stretchPixel (src : Bytes) (taps : Array Tap) (width j x : Nat) (rows : Array Float32) :
    Run (Array Float32) := do
  let t ← fetch taps x
  let lower ← fetch src t.lower
  let upper ← fetch src t.upper
  let i ← add (← mul j width) x
  store rows i (lower.toFloat32 * (1.0 - t.weight) + upper.toFloat32 * t.weight)

def stretchRow (samples : Bytes) (taps : Array Tap) (columns width j : Nat)
    (rows : Array Float32) : Run (Array Float32) := do
  let src ← slice samples (← mul j columns) (← mul (← add j 1) columns)
  loop (stretchPixel src taps width j) width rows

/-- Put one pixel between two stretched rows.  The clamp keeps it a pixel value. -/
def blendPixel (rows : Array Float32) (t : Tap) (width start x : Nat) (dst : Bytes) :
    Run Bytes := do
  let lower ← fetch rows (← add (← mul t.lower width) x)
  let upper ← fetch rows (← add (← mul t.upper width) x)
  let value := lower * (1.0 - t.weight) + upper * t.weight
  let _ ← clamp (value + 0.5) 0.0 255.0
  store dst (← add start x) (toPixel value)

def blendRow (rows : Array Float32) (taps : Array Tap) (width stride y : Nat) (dst : Bytes) :
    Run Bytes := do
  let t ← fetch taps y
  let start ← mul y stride
  let _ ← slice dst start (← add start width)
  loop (blendPixel rows t width start) width dst

def upsample (c : Cells) (samples dst : Bytes) (stride : Nat) : Run Bytes := do
  let columns ← c.columns
  let across ← taps c.x
  let down ← taps c.y
  let width := across.size
  let rows ← c.rows
  let stretched ← loop (stretchRow samples across columns width) rows
    (Array.replicate (← mul rows width) 0.0)
  loop (blendRow stretched down width stride) down.size dst

end HopCodec.Machine
