/-
Frames: a luma plane and two chroma planes whose size follows from the chroma format.
-/
import HopCodec.Block.Grid
import HopCodec.Plane

namespace HopCodec

/-- How a frame is cut into blocks and whether blocks may drop samples. -/
inductive FrameMode
  | sequential
  | parallel
  | advanced
deriving DecidableEq, Repr

namespace FrameMode

/-- The low nibble of a frame's first byte. -/
def code : FrameMode → Nat
  | sequential => 0
  | parallel => 1
  | advanced => 2

def ofCode? (code : Nat) : Except HeaderFault FrameMode :=
  match code with
  | 0 => .ok sequential
  | 1 => .ok parallel
  | 2 => .ok advanced
  | _ => .error .unknownMode

def name : FrameMode → String
  | sequential => "basic-sequential"
  | parallel => "basic-parallel"
  | advanced => "advanced"

theorem ofCode?_code (m : FrameMode) : ofCode? m.code = .ok m := by
  cases m <;> rfl

end FrameMode

/-- How many chroma samples there are for the luma pixels. -/
inductive ChromaFormat
  | yuv420
  | yuv422
  | yuv444
deriving DecidableEq, Repr

namespace ChromaFormat

/-- The high nibble of a frame's first byte. -/
def code : ChromaFormat → Nat
  | yuv420 => 0
  | yuv422 => 1
  | yuv444 => 2

def ofCode? (code : Nat) : Except HeaderFault ChromaFormat :=
  match code with
  | 0 => .ok yuv420
  | 1 => .ok yuv422
  | 2 => .ok yuv444
  | _ => .error .unknownChroma

def name : ChromaFormat → String
  | yuv420 => "4:2:0"
  | yuv422 => "4:2:2"
  | yuv444 => "4:4:4"

/-- Luma pixels per chroma sample, across and down. -/
def factors : ChromaFormat → Nat × Nat
  | yuv420 => (2, 2)
  | yuv422 => (2, 1)
  | yuv444 => (1, 1)

/-- The size of the chroma planes of a luma plane. -/
def chromaSize (f : ChromaFormat) (width height : Nat) : Nat × Nat :=
  (ceilDiv width f.factors.1, ceilDiv height f.factors.2)

theorem ofCode?_code (f : ChromaFormat) : ofCode? f.code = .ok f := by
  cases f <;> rfl

end ChromaFormat

/-- One value per plane, in stream order. -/
structure Channels (α : Type) where
  luma : α
  chromaA : α
  chromaB : α
deriving DecidableEq, Repr

namespace Channels

variable {α β : Type}

def toList (c : Channels α) : List α :=
  [c.luma, c.chromaA, c.chromaB]

def map (f : α → β) (c : Channels α) : Channels β :=
  ⟨f c.luma, f c.chromaA, f c.chromaB⟩

end Channels

/-- Three planes whose sizes agree with the chroma format. -/
structure Frame where
  chroma : ChromaFormat
  planes : Channels Plane
  chromaA_size : (planes.chromaA.width, planes.chromaA.height) =
    chroma.chromaSize planes.luma.width planes.luma.height
  chromaB_size : (planes.chromaB.width, planes.chromaB.height) =
    chroma.chromaSize planes.luma.width planes.luma.height
deriving DecidableEq

namespace Frame

/-- A frame of three planes, if their sizes agree. -/
def ofPlanes? (chroma : ChromaFormat) (planes : Channels Plane) : Except Fault Frame :=
  if ha : (planes.chromaA.width, planes.chromaA.height) =
      chroma.chromaSize planes.luma.width planes.luma.height then
    if hb : (planes.chromaB.width, planes.chromaB.height) =
        chroma.chromaSize planes.luma.width planes.luma.height then
      .ok ⟨chroma, planes, ha, hb⟩
    else .error (.argument .chromaSize)
  else .error (.argument .chromaSize)

/-- The value of a chroma sample without colour. -/
def neutral : UInt8 := 128

/-- A black frame without colour. -/
def new? (width height : Nat) (chroma : ChromaFormat) : Except Fault Frame := do
  let (cw, ch) := chroma.chromaSize width height
  let luma ← Plane.new? width height
  let a ← Plane.filled? cw ch neutral
  let b ← Plane.filled? cw ch neutral
  ofPlanes? chroma ⟨luma, a, b⟩

def width (f : Frame) : Nat :=
  f.planes.luma.width

def height (f : Frame) : Nat :=
  f.planes.luma.height

/-- The visible pixels of each plane. -/
def packed (f : Frame) : Channels Bytes :=
  f.planes.map Plane.toPacked

end Frame

end HopCodec
