/-
Planes and frames on the machine.  A canvas is the bare parts of a plane; nothing but the program
itself keeps it from reaching behind its buffer.
-/
import HopCodec.Machine.Grid
import HopCodec.Frame

namespace HopCodec.Machine

/-- A plane as its size, stride and buffer. -/
structure Canvas where
  width : Nat
  height : Nat
  stride : Nat
  data : Bytes

namespace Canvas

def ofPlane (p : Plane) : Canvas :=
  ⟨p.width, p.height, p.stride, p.data⟩

/-- A packed canvas of zeros. -/
def new (width height : Nat) : Run Canvas := do
  return ⟨width, height, width, ← allocate (← mul width height)⟩

def filled (width height : Nat) (value : UInt8) : Run Canvas := do
  let c ← new width height
  return { c with data := Array.replicate c.data.size value }

/-- A canvas over a given buffer. -/
def ofBytes (width height stride : Nat) (data : Bytes) : Run Canvas := do
  if stride < width then refuse (.argument .planeStride)
  if 0 < height then
    if data.size < (← add (← mul (← sub height 1) stride) width) then
      refuse (.argument .planeBuffer)
  return ⟨width, height, stride, data⟩

def row (c : Canvas) (y : Nat) : Run Bytes := do
  let start ← mul y c.stride
  slice c.data start (← add start c.width)

def toPacked (c : Canvas) : Run Bytes := do
  let _ ← mul c.width c.height
  loop (fun y out => do return out ++ (← c.row y)) c.height #[]

def region (c : Canvas) (x y : Nat) : Run Bytes := do
  slice c.data (← add (← mul y c.stride) x) c.data.size

/-- Copy the `k`-th row of a block into the row of the canvas that it belongs to. -/
def blitRow (c : Canvas) (x y width : Nat) (src : Bytes) (srcStride k : Nat) (data : Bytes) :
    Run Bytes := do
  let start ← mul (← add y k) c.stride
  let row ← slice data start (← add start c.width)
  let target ← slice row x (← add x width)
  let first ← mul k srcStride
  let pixels ← slice src first (← add first width)
  ensure (target.size = pixels.size)
  loop (fun i data => do store data (start + x + i) (← fetch pixels i)) width data

/-- Copy a block into a rectangle of the canvas. -/
def blit (c : Canvas) (x y width height : Nat) (src : Bytes) (srcStride : Nat) : Run Canvas := do
  let data ← loop (c.blitRow x y width src srcStride) height c.data
  return { c with data }

end Canvas

def chromaSize (f : ChromaFormat) (width height : Nat) : Run (Nat × Nat) := do
  return (← divCeil width f.factors.1, ← divCeil height f.factors.2)

/-- A frame as its chroma format and canvases. -/
structure Picture where
  chroma : ChromaFormat
  planes : Channels Canvas

namespace Picture

def ofFrame (f : Frame) : Picture :=
  ⟨f.chroma, f.planes.map Canvas.ofPlane⟩

/-- A picture of three canvases, if their sizes agree. -/
def ofPlanes (chroma : ChromaFormat) (planes : Channels Canvas) : Run Picture := do
  let size ← chromaSize chroma planes.luma.width planes.luma.height
  if (planes.chromaA.width, planes.chromaA.height) ≠ size then refuse (.argument .chromaSize)
  if (planes.chromaB.width, planes.chromaB.height) ≠ size then refuse (.argument .chromaSize)
  return ⟨chroma, planes⟩

end Picture

end HopCodec.Machine
