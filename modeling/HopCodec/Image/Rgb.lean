/-
Full-range conversion between RGB pixels and a luma plane with two chroma planes, in single
precision.  Chroma is averaged over the pixels that share a sample.
-/
import HopCodec.Block.Resample
import HopCodec.Frame

namespace HopCodec

open Single

namespace Rgb

structure Pixel where
  red : Float32
  green : Float32
  blue : Float32

def pixelAt (rgb : Bytes) (i : Nat) : Pixel :=
  let component (k : Nat) : Float32 := (rgb.getD (3 * i + k) 0).toFloat32
  ⟨component 0, component 1, component 2⟩

def Pixel.luma (p : Pixel) : Float32 :=
  0.299 * p.red + 0.587 * p.green + 0.114 * p.blue

def Pixel.blueness (p : Pixel) : Float32 :=
  128.0 - 0.168736 * p.red - 0.331264 * p.green + 0.5 * p.blue

def Pixel.redness (p : Pixel) : Float32 :=
  128.0 + 0.5 * p.red - 0.418688 * p.green - 0.081312 * p.blue

/-- The pixels of an image that share chroma sample `(cx, cy)`, as raster indices in order. -/
def sharing (chroma : ChromaFormat) (width height cx cy : Nat) : List Nat :=
  let (fx, fy) := chroma.factors
  let indices (c factor len : Nat) : List Nat :=
    (List.range (min ((c + 1) * factor) len - c * factor)).map fun i => c * factor + i
  (indices cy fy height).flatMap fun y => (indices cx fx width).map fun x => y * width + x

/-- The mean of some singles, summed in order. -/
def mean (values : List Float32) : Float32 :=
  let (sum, n) := values.foldl (fun (sum, n) v => (sum + v, n + 1.0))
    ((0.0 : Float32), (0.0 : Float32))
  sum / n

/-- The chroma plane of a component. -/
def chromaPixels (rgb : Bytes) (width height : Nat) (chroma : ChromaFormat)
    (component : Pixel → Float32) : Bytes :=
  let (chromaW, chromaH) := chroma.chromaSize width height
  Array.ofFn fun k : Fin (chromaW * chromaH) =>
    toPixel (mean ((sharing chroma width height (k.val % chromaW) (k.val / chromaW)).map
      fun i => component (pixelAt rgb i)))

/-- A frame from byte triples. -/
def toFrame (rgb : Bytes) (width height : Nat) (chroma : ChromaFormat) : Except Fault Frame := do
  if rgb.size < width * height * 3 then throw (.argument .shortRgb)
  reserve (width * height)
  let (chromaW, chromaH) := chroma.chromaSize width height
  let luma ← Plane.ofBytes? width height width
    (Array.ofFn fun i : Fin (width * height) => toPixel (pixelAt rgb i).luma)
  let a ← Plane.ofBytes? chromaW chromaH chromaW
    (chromaPixels rgb width height chroma Pixel.blueness)
  let b ← Plane.ofBytes? chromaW chromaH chromaW
    (chromaPixels rgb width height chroma Pixel.redness)
  Frame.ofPlanes? chroma ⟨luma, a, b⟩

/-- The byte triple of a pixel from its luma and chroma samples. -/
def ofSamples (luma a b : UInt8) : List UInt8 :=
  let y := luma.toFloat32
  let u := a.toFloat32 - 128.0
  let v := b.toFloat32 - 128.0
  [toPixel (y + 1.402 * v), toPixel (y - 0.344136 * u - 0.714136 * v),
    toPixel (y + 1.772 * u)]

/-- The byte triples of a frame, row by row. -/
def ofFrame (f : Frame) : Bytes :=
  let (fx, fy) := f.chroma.factors
  ((List.range (f.width * f.height)).flatMap fun i =>
    let x := i % f.width
    let y := i / f.width
    ofSamples (f.planes.luma.get x y) (f.planes.chromaA.get (x / fx) (y / fy))
      (f.planes.chromaB.get (x / fx) (y / fy))).toArray

end Rgb

end HopCodec
