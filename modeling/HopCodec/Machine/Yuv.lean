/-
Raw planar sequences on the machine.  Chunks and planes are cut out at computed places, and a cut
outside its chunk traps.
-/
import HopCodec.Machine.Canvas

namespace HopCodec.Machine.Yuv

/-- The bytes of one frame. -/
def frameSize (width height : Nat) (chroma : ChromaFormat) : Run Nat := do
  let size ← chromaSize chroma width height
  add (← mul width height) (← mul (← mul 2 size.1) size.2)

/-- Cut a chunk into two. -/
def splitAt (chunk : Bytes) (place : Nat) : Run (Bytes × Bytes) := do
  return (← slice chunk 0 place, ← slice chunk place chunk.size)

/-- The frame of a chunk. -/
def frameOf (chunk : Bytes) (width height : Nat) (chroma : ChromaFormat) : Run Picture := do
  let size ← chromaSize chroma width height
  let cut ← splitAt chunk (← mul width height)
  let cut' ← splitAt cut.2 (← mul size.1 size.2)
  let luma ← Canvas.ofBytes width height width cut.1
  let a ← Canvas.ofBytes size.1 size.2 size.1 cut'.1
  let b ← Canvas.ofBytes size.1 size.2 size.1 cut'.2
  Picture.ofPlanes chroma ⟨luma, a, b⟩

/-- Split a sequence into frames of a known size. -/
def read (data : Bytes) (width height : Nat) (chroma : ChromaFormat) : Run (List Picture) := do
  if width = 0 ∨ height = 0 then refuse (.argument .yuvNeedsSize)
  let size ← frameSize width height chroma
  if data.size = 0 then refuse (.format (.yuvSize data.size size))
  if (← rem data.size size) ≠ 0 then refuse (.format (.yuvSize data.size size))
  (List.range (← div data.size size)).mapM fun i => do
    let start ← mul i size
    frameOf (← slice data start (← add start size)) width height chroma

/-- Append some bytes to a buffer. -/
def append (out bytes : Bytes) : Run Bytes := do
  let _ ← add out.size bytes.size
  return out ++ bytes

/-- Append the planes of a frame to a buffer. -/
def write (out : Bytes) (p : Picture) : Run Bytes :=
  p.planes.toList.foldlM (fun out plane => do append out (← plane.toPacked)) out

def writeAll (frames : List Picture) : Run Bytes :=
  frames.foldlM write #[]

end HopCodec.Machine.Yuv
