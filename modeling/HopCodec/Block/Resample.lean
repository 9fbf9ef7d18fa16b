/-
Down- and upsampling over elastic cells.  The coder keeps the mean of each cell; the decoder
interpolates linearly between the cell centres, first along rows and then along columns.
-/
import HopCodec.Block.Cells

namespace HopCodec

open Single

/-- The sum of `f` over the numbers `[start, stop)`. -/
def sumRange (start stop : Nat) (f : Nat → Nat) : Nat :=
  (stop - start).fold (fun i _ sum => sum + f (start + i)) 0

/-- The rounded mean of the pixels of `[left, right) × [top, bottom)`. -/
def cellMean (src : Bytes) (stride left right top bottom : Nat) : UInt8 :=
  let sum := sumRange top bottom fun y =>
    sumRange left right fun x => (src.getD (y * stride + x) 0).toNat
  let n := (bottom - top) * (right - left)
  UInt8.ofNat ((sum + n / 2) / n)

/-- The mean of every cell, row by row. -/
def BlockCells.downsample (c : BlockCells) (src : Bytes) (stride : Nat) : Bytes :=
  let xs := c.x.toArray
  let ys := c.y.toArray
  Array.ofFn fun k : Fin (c.columns * c.rows) =>
    let i := k.val % c.columns
    let j := k.val / c.columns
    cellMean src stride (xs.getD i 0) (xs.getD (i + 1) 0) (ys.getD j 0) (ys.getD (j + 1) 0)

/-- The two samples that a pixel lies between, and the weight of the second one. -/
structure Tap where
  lower : Nat
  upper : Nat
  weight : Float32

namespace Tap

/-- The middle of every cell. -/
def centres : List Nat → List Float32
  | a :: b :: rest => ofNat (a + b) / 2.0 :: centres (b :: rest)
  | _ => []

/-- The last centre, other than the very last one, that is not beyond `position`; the first one if
all are. -/
def lowerCentre (centres : Array Float32) (position : Float32) (i : Nat) : Nat :=
  if i + 2 < centres.size ∧ centres.getD (i + 1) 0.0 ≤ position then
    lowerCentre centres position (i + 1)
  else i
termination_by centres.size - i

/-- The tap of pixel `p`.  A single sample serves all pixels. -/
def ofPixel (centres : Array Float32) (p : Nat) : Tap :=
  if centres.size = 1 then ⟨0, 0, 0.0⟩
  else
    let position := ofNat p + 0.5
    let i := lowerCentre centres position 0
    let here := centres.getD i 0.0
    let next := centres.getD (i + 1) 0.0
    ⟨i, i + 1, clamp ((position - here) / (next - here)) 0.0 1.0⟩

/-- The taps of all pixels along an axis with the given cell boundaries. -/
def ofBounds (bounds : List Nat) : Array Tap :=
  let centres := (centres bounds).toArray
  Array.ofFn fun p : Fin (bounds.getLastD 0) => ofPixel centres p

/-- The value between the two samples of a tap. -/
def blend (t : Tap) (sample : Nat → Float32) : Float32 :=
  sample t.lower * (1.0 - t.weight) + sample t.upper * t.weight

end Tap

/-- The sample rows, each stretched to full width. -/
def stretchRows (samples : Bytes) (columns rows : Nat) (taps : Array Tap) : Array Float32 :=
  Array.ofFn fun k : Fin (rows * taps.size) =>
    let j := k.val / taps.size
    match taps[k.val % taps.size]? with
    | some t => t.blend fun i => (samples.getD (j * columns + i) 0).toFloat32
    | none => 0.0

/-- The pixels of a block, row by row, from its samples. -/
def BlockCells.upsample (c : BlockCells) (samples : Bytes) : Bytes :=
  let across := Tap.ofBounds c.x
  let down := Tap.ofBounds c.y
  let width := across.size
  let rows := stretchRows samples c.columns c.rows across
  Array.ofFn fun k : Fin (width * down.size) =>
    let x := k.val % width
    match down[k.val / width]? with
    | some t => toPixel (t.blend fun j => rows.getD (j * width + x) 0.0)
    | none => 0

end HopCodec
