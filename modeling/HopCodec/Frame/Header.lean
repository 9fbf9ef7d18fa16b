/-
The fixed part of a coded frame: mode and chroma format in one byte, width and height, the block
grid, and the hop parameters with the prediction rule in their top bit.
-/
import HopCodec.Frame
import HopCodec.Prediction

namespace HopCodec

/-- The block grids of a frame.  Both chroma planes share one. -/
structure FrameGrids where
  luma : BlockGrid
  chroma : BlockGrid

def FrameGrids.channels (g : FrameGrids) : Channels BlockGrid :=
  ⟨g.luma, g.chroma, g.chroma⟩

/-- The coded samples of all three planes. -/
def FrameGrids.sampleCount (g : FrameGrids) : Nat :=
  g.luma.sampleCount + 2 * g.chroma.sampleCount

/-- What a coded frame says about itself first. -/
structure FrameHeader where
  mode : FrameMode
  chroma : ChromaFormat
  width : UInt32
  height : UInt32
  blocksW : UInt8
  blocksH : UInt8
  ratio : UInt8
  prediction : Prediction
deriving DecidableEq, Repr

namespace FrameHeader

def dimensionMax : Nat := 1 <<< 15

def pixelsMax : Nat := 1 <<< 28

def lumaSize (h : FrameHeader) : Nat × Nat :=
  (h.width.toNat, h.height.toNat)

def chromaSize (h : FrameHeader) : Nat × Nat :=
  h.chroma.chromaSize h.width.toNat h.height.toNat

/-- The full-resolution grids.  In advanced mode no block may be too small to be downsampled. -/
def grids (h : FrameHeader) : Except Fault FrameGrids := do
  let luma ← BlockGrid.partition h.width.toNat h.height.toNat h.blocksW.toNat h.blocksH.toNat
  let chroma ← luma.subsample h.chroma.factors.1 h.chroma.factors.2
  if h.mode = .advanced then
    luma.requireSide sideMin
    chroma.requireSide sideMin
  return ⟨luma, chroma⟩

/-- The first fault of the fields, leaving the grids aside. -/
def fieldFault? (h : FrameHeader) : Option HeaderFault :=
  if h.width = 0 ∨ h.height = 0 then some .zeroDimension
  else if dimensionMax < h.width.toNat ∨ dimensionMax < h.height.toNat then
    some .dimensionTooLarge
  else if pixelsMax < h.width.toNat * h.height.toNat then some .tooManyPixels
  else if h.blocksW = 0 ∨ h.blocksH = 0 then some .noBlocks
  else if h.mode = .sequential ∧ ¬(h.blocksW = 1 ∧ h.blocksH = 1) then some .gridNotSingle
  else if h.ratio.toNat < Predictor.ratioMin ∨ Predictor.ratioMax < h.ratio.toNat then
    some .ratioOutOfRange
  else if h.prediction = .weighted ∧ h.mode ≠ .sequential then some .weightedOutsideSequential
  else none

/-- A header is valid if its fields are and every plane can be cut into its blocks. -/
def validate (h : FrameHeader) : Except Fault Unit :=
  match h.fieldFault? with
  | some fault => .error (.header fault)
  | none => h.grids.map fun _ => ()

/-- The bit of the parameter byte that asks for weighted prediction. -/
def weightedFlag : UInt8 := 0x80

def modeByte (h : FrameHeader) : UInt8 :=
  UInt8.ofNat (h.chroma.code * 16 + h.mode.code)

def parameterByte (h : FrameHeader) : UInt8 :=
  match h.prediction with
  | .average => h.ratio
  | .weighted => weightedFlag ||| h.ratio

def write (h : FrameHeader) (w : BitWriter) : BitWriter :=
  (((((w.writeByte h.modeByte).writeWord h.width).writeWord h.height).writeByte
    h.blocksW).writeByte h.blocksH).writeByte h.parameterByte

/-- Read the fields of a header.  The mode byte is judged before anything else is read. -/
def readFields : Reading FrameHeader := do
  let modeByte ← Reading.byte
  let mode ← Reading.lift ((FrameMode.ofCode? (modeByte.toNat % 16)).mapError Fault.header)
  let chroma ← Reading.lift ((ChromaFormat.ofCode? (modeByte.toNat / 16)).mapError Fault.header)
  let width ← Reading.word
  let height ← Reading.word
  let blocksW ← Reading.byte
  let blocksH ← Reading.byte
  let parameters ← Reading.byte
  return { mode, chroma, width, height, blocksW, blocksH
           ratio := parameters &&& ~~~weightedFlag
           prediction := if parameters &&& weightedFlag = 0 then .average else .weighted }

def read : Reading FrameHeader := do
  let h ← readFields
  Reading.lift h.validate
  return h

end FrameHeader

end HopCodec
