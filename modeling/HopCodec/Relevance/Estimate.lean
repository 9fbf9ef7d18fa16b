/-
Estimating relevance.  One scan of the luma plane measures activity along rows, a scan of its
transpose activity along columns; the mean hop magnitude around a corner, as far as it counts,
becomes the relevance of the corner in that direction.
-/
import HopCodec.Block.Resample
import HopCodec.Plane
import HopCodec.Prediction

namespace HopCodec

open Single

namespace Relevance

/-- The mean magnitude from which on a corner is fully relevant. -/
def saturation : Float32 := 2.0

/-- The part of `[0, len)` within `half` of a centre.  It is never empty. -/
def surroundings (centre half len : Nat) : Nat × Nat :=
  let half := max half 1
  let lo := min (centre - half) (len - 1)
  (lo, max (min (centre + half) len) (lo + 1))

/-- The relevance of a magnitude sum over `n` pixels. -/
def ofActivity (sum n : Nat) : RelevanceLevel :=
  let mean := ofNat sum / ofNat (max n 1)
  .quantize (smaller (mean / saturation) 1.0)

/-- Exchange the rows and columns of a packed `width × height` block. -/
def transpose (width height : Nat) (pixels : Bytes) : Bytes :=
  Array.ofFn fun k : Fin (width * height) =>
    pixels.getD (k.val % height * width + k.val / height) 0

def magnitudeAt (hops : Array Hop) (i : Nat) : Nat :=
  (hops.getD i .null).magnitude

/-- The relevance at every corner of a grid on a luma plane. -/
def estimate (p : Predictor) (luma : Plane) (grid : BlockGrid) : RelevanceMesh :=
  let width := luma.width
  let height := luma.height
  let pixels := luma.toPacked
  let across := (p.encodeBlock width height pixels).hops
  let down := (p.encodeBlock height width (transpose width height pixels)).hops
  let halfW := width / grid.blocksW / 2
  let halfH := height / grid.blocksH / 2
  RelevanceMesh.ofFn grid.blocksW grid.blocksH fun cx cy =>
    let (left, right) := surroundings (grid.xBounds.getD cx 0) halfW width
    let (top, bottom) := surroundings (grid.yBounds.getD cy 0) halfH height
    let n := (bottom - top) * (right - left)
    let sumX := sumRange top bottom fun y =>
      sumRange left right fun x => magnitudeAt across (y * width + x)
    let sumY := sumRange top bottom fun y =>
      sumRange left right fun x => magnitudeAt down (x * height + y)
    ⟨ofActivity sumX n, ofActivity sumY n⟩

end Relevance

end HopCodec
