/-
Raw planar sequences: frame after frame, each plane of a frame packed and in stream order.
-/
import HopCodec.Frame

namespace HopCodec

namespace Yuv

def frameSize (width height : Nat) (chroma : ChromaFormat) : Nat :=
  let (chromaW, chromaH) := chroma.chromaSize width height
  width * height + 2 * chromaW * chromaH

/-- The frame whose bytes begin at a place. -/
def frameAt (data : Bytes) (width height : Nat) (chroma : ChromaFormat) (place : Nat) :
    Except Fault Frame := do
  let (chromaW, chromaH) := chroma.chromaSize width height
  let endLuma := place + width * height
  let endA := endLuma + chromaW * chromaH
  let luma ← Plane.ofBytes? width height width (data.extract place endLuma)
  let a ← Plane.ofBytes? chromaW chromaH chromaW (data.extract endLuma endA)
  let b ← Plane.ofBytes? chromaW chromaH chromaW (data.extract endA (endA + chromaW * chromaH))
  Frame.ofPlanes? chroma ⟨luma, a, b⟩

/-- Split a sequence into frames of a known size. -/
def read (data : Bytes) (width height : Nat) (chroma : ChromaFormat) :
    Except Fault (List Frame) :=
  if width = 0 ∨ height = 0 then .error (.argument .yuvNeedsSize)
  else
    let size := frameSize width height chroma
    if data.size = 0 ∨ data.size % size ≠ 0 then .error (.format (.yuvSize data.size size))
    else
      (List.range (data.size / size)).mapM fun i => frameAt data width height chroma (i * size)

def write (f : Frame) : Bytes :=
  f.packed.toList.foldl (· ++ ·) #[]

def writeAll (frames : List Frame) : Bytes :=
  frames.foldl (fun out f => out ++ write f) #[]

end Yuv

end HopCodec
