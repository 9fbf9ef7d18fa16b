/-
Conversion from RGB pixels on the machine.  One pass fills the luma plane and a buffer for each
chroma component, a second one averages the components over the pixels of each chroma sample.
-/
import HopCodec.Image.Rgb
import HopCodec.Machine.Canvas

namespace HopCodec.Machine.Rgb

open Single
open HopCodec.Rgb (Pixel)

/-- A buffer of single-precision zeros, which take four bytes each. -/
def singles (count : Nat) : Run (Array Float32) := do
  ensure (4 * count < wordSize / 2)
  return Array.replicate count 0.0

/-- The luma plane and the chroma components of all pixels. -/
structure Components where
  luma : Bytes
  blueness : Array Float32
  redness : Array Float32

def convertPixel (rgb : Bytes) (i : Nat) (c : Components) : Run Components := do
  let start ← mul 3 i
  let triple ← slice rgb start (← add start 3)
  let pixel : Pixel :=
    ⟨(← fetch triple 0).toFloat32, (← fetch triple 1).toFloat32, (← fetch triple 2).toFloat32⟩
  let luma ← store c.luma i (toPixel pixel.luma)
  let blueness ← store c.blueness i pixel.blueness
  let redness ← store c.redness i pixel.redness
  return ⟨luma, blueness, redness⟩

/-- The sums of both components over some pixels, and their number. -/
structure Sums where
  blueness : Float32
  redness : Float32
  count : Float32

def Sums.zero : Sums :=
  ⟨0.0, 0.0, 0.0⟩

def Sums.add (s : Sums) (blueness redness : Float32) : Sums :=
  ⟨s.blueness + blueness, s.redness + redness, s.count + 1.0⟩

/-- Add pixel `(x, y)` to the sums. -/
def addPixel (c : Components) (width x y : Nat) (s : Sums) : Run Sums := do
  let place ← Machine.add (← mul y width) x
  return s.add (← fetch c.blueness place) (← fetch c.redness place)

/-- Add up the pixels that share chroma sample `(cx, cy)`. -/
def sumSample (c : Components) (factors : Nat × Nat) (width height cx cy : Nat) : Run Sums := do
  let top ← mul cy factors.2
  let bottom := min (← mul (← Machine.add cy 1) factors.2) height
  loop (fun j s => do
    let left ← mul cx factors.1
    let right := min (← mul (← Machine.add cx 1) factors.1) width
    loop (fun i => addPixel c width (left + i) (top + j)) (right - left) s) (bottom - top) .zero

/-- Average the pixels of chroma sample `(cx, cy)` into both chroma planes. -/
def setSample (c : Components) (factors : Nat × Nat) (width height chromaW cx cy : Nat)
    (planes : Bytes × Bytes) : Run (Bytes × Bytes) := do
  let s ← sumSample c factors width height cx cy
  let place ← Machine.add (← mul cy chromaW) cx
  let a ← store planes.1 place (toPixel (s.blueness / s.count))
  let b ← store planes.2 place (toPixel (s.redness / s.count))
  return (a, b)

def toPicture (rgb : Bytes) (width height : Nat) (chroma : ChromaFormat) : Run Picture := do
  let count ← mul width height
  if rgb.size < (← mul count 3) then refuse (.argument .shortRgb)
  let luma ← Canvas.new width height
  let blueness ← singles count
  let redness ← singles count
  let c ← loop (convertPixel rgb) count ⟨luma.data, blueness, redness⟩
  let size ← chromaSize chroma width height
  let a ← Canvas.new size.1 size.2
  let b ← Canvas.new size.1 size.2
  let planes ← loop (fun cy => loop (fun cx =>
    setSample c chroma.factors width height size.1 cx cy) size.1) size.2 (a.data, b.data)
  Picture.ofPlanes chroma
    ⟨{ luma with data := c.luma }, { a with data := planes.1 }, { b with data := planes.2 }⟩

end HopCodec.Machine.Rgb
