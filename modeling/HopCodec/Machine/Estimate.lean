/-
Estimating relevance on the machine.
-/
import HopCodec.Machine.Canvas
import HopCodec.Machine.Scan
import HopCodec.Machine.Shape
import HopCodec.Relevance.Estimate

namespace HopCodec.Machine

/-- The part of `[0, len)` within `half` of a centre. -/
def surroundings (centre half len : Nat) : Run (Nat × Nat) := do
  let half := max half 1
  let first := min (centre - half) (← sub len 1)
  let reach ← add centre half
  return (first, max (min reach len) (← add first 1))

def transposePixel (luma : Canvas) (x y : Nat) (turned : Bytes) : Run Bytes := do
  let pixel ← fetch luma.data (← add (← mul y luma.stride) x)
  store turned (← add (← mul x luma.height) y) pixel

/-- Exchange the rows and columns of a canvas. -/
def transpose (luma : Canvas) (turned : Bytes) : Run Bytes :=
  loop (fun y => loop (fun x => transposePixel luma x y) luma.width) luma.height turned

/-- The hops of a plane and of its transpose. -/
structure Activity where
  width : Nat
  height : Nat
  across : Array Hop
  down : Array Hop

namespace Activity

/-- Count the magnitudes of both hops of a pixel. -/
def addPixel (a : Activity) (x y : Nat) (sums : Nat × Nat) : Run (Nat × Nat) := do
  let across ← fetch a.across (← add (← mul y a.width) x)
  let sumX ← add sums.1 across.magnitude
  let down ← fetch a.down (← add (← mul x a.height) y)
  let sumY ← add sums.2 down.magnitude
  return (sumX, sumY)

/-- The relevance of the pixels of `[left, right) × [top, bottom)`. -/
def corner (a : Activity) (left right top bottom : Nat) : Run RelevanceCorner := do
  let sums ← loop (fun j => loop (fun i => a.addPixel (left + i) (top + j)) (right - left))
    (bottom - top) (0, 0)
  let n ← mul (← sub bottom top) (← sub right left)
  return ⟨Relevance.ofActivity sums.1 n, Relevance.ofActivity sums.2 n⟩

/-- Put the relevance of one mesh corner into its place. -/
def setCorner (a : Activity) (g : BlockGrid) (halfW : Nat) (rows : Nat × Nat) (cx cy : Nat)
    (corners : Array RelevanceCorner) : Run (Array RelevanceCorner) := do
  let columns ← surroundings (← fetch g.xBounds cx) halfW a.width
  let corner ← a.corner columns.1 columns.2 rows.1 rows.2
  store corners (← add (← mul cy (← add g.blocksW 1)) cx) corner

/-- Put the relevance of a row of mesh corners into their places. -/
def setCorners (a : Activity) (g : BlockGrid) (halfW halfH cy : Nat)
    (corners : Array RelevanceCorner) : Run (Array RelevanceCorner) := do
  let rows ← surroundings (← fetch g.yBounds cy) halfH a.height
  loop (fun cx => a.setCorner g halfW rows cx cy) g.xBounds.size corners

/-- The relevance at every corner of a grid. -/
def mesh (a : Activity) (g : BlockGrid) : Run RelevanceMesh := do
  let halfW := (← div a.width g.blocksW) / 2
  let halfH := (← div a.height g.blocksH) / 2
  let count ← Mesh.cornerCount g.blocksW g.blocksH
  let corners ← loop (a.setCorners g halfW halfH) g.yBounds.size
    (Array.replicate count (.uniform .zero))
  return RelevanceMesh.ofRaster g.blocksW g.blocksH corners

end Activity

namespace Forecast

/-- Scan a plane along its rows and along its columns. -/
def activity (f : Forecast) (luma : Canvas) : Run Activity := do
  let pixels ← allocate (← mul luma.width luma.height)
  let across ← f.encode ⟨luma.width, luma.height, luma.stride⟩ luma.data
    (.packed luma.width luma.height) pixels
  let turned ← transpose luma (← allocate (← mul luma.width luma.height))
  let window := Window.packed luma.height luma.width
  let down ← f.encode window turned window across.pixels
  return ⟨luma.width, luma.height, across.hops, down.hops⟩

/-- Estimate the relevance at every corner of a grid on a luma plane. -/
def estimate (f : Forecast) (luma : Canvas) (g : BlockGrid) : Run RelevanceMesh := do
  (← f.activity luma).mesh g

end Forecast

end HopCodec.Machine
