/-
Frame headers and prologues on the machine.
-/
import HopCodec.Frame.Prologue
import HopCodec.Machine.Canvas
import HopCodec.Machine.Shape
import HopCodec.Machine.Table

namespace HopCodec.Machine

namespace Header

def chromaSize (h : FrameHeader) : Run (Nat × Nat) :=
  Machine.chromaSize h.chroma h.width.toNat h.height.toNat

def grids (h : FrameHeader) : Run FrameGrids := do
  let luma ← Grid.partition h.width.toNat h.height.toNat h.blocksW.toNat h.blocksH.toNat
  let chroma ← Grid.subsample luma h.chroma.factors.1 h.chroma.factors.2
  if h.mode = .advanced then
    Grid.requireSide luma sideMin
    Grid.requireSide chroma sideMin
  return ⟨luma, chroma⟩

/-- The range checks.  Sides are checked before their product is formed. -/
def checkFields (h : FrameHeader) : Run Unit := do
  if h.width = 0 ∨ h.height = 0 then refuse (.header .zeroDimension)
  else if FrameHeader.dimensionMax < h.width.toNat ∨
      FrameHeader.dimensionMax < h.height.toNat then
    refuse (.header .dimensionTooLarge)
  else if FrameHeader.pixelsMax < (← mul h.width.toNat h.height.toNat) then
    refuse (.header .tooManyPixels)
  else if h.blocksW = 0 ∨ h.blocksH = 0 then refuse (.header .noBlocks)
  else if h.mode = .sequential ∧ ¬(h.blocksW = 1 ∧ h.blocksH = 1) then
    refuse (.header .gridNotSingle)
  else if h.ratio.toNat < Predictor.ratioMin ∨ Predictor.ratioMax < h.ratio.toNat then
    refuse (.header .ratioOutOfRange)
  else if h.prediction = .weighted ∧ h.mode ≠ .sequential then
    refuse (.header .weightedOutsideSequential)

def validate (h : FrameHeader) : Run Unit := do
  checkFields h
  let _ ← grids h
  return ()

def modeByte (h : FrameHeader) : Run UInt8 := do
  let high ← shiftLeft 8 h.chroma.code 4
  return UInt8.ofNat (high ||| h.mode.code)

def write (h : FrameHeader) (p : Packer) : Run Packer := do
  let p ← p.writeByte (← modeByte h)
  let p ← p.writeWord h.width
  let p ← p.writeWord h.height
  let p ← p.writeByte h.blocksW
  let p ← p.writeByte h.blocksH
  p.writeByte h.parameterByte

/-- Read the fields of a header.  The mode byte is judged before anything else is read. -/
def readFields : Scanner FrameHeader := do
  let modeByte ← Scanner.byte
  let mode ← lift ((FrameMode.ofCode? (modeByte.toNat % 16)).mapError Fault.header)
  let high ← shiftRight 8 modeByte.toNat 4
  let chroma ← lift ((ChromaFormat.ofCode? high).mapError Fault.header)
  let width ← Scanner.word
  let height ← Scanner.word
  let blocksW ← Scanner.byte
  let blocksH ← Scanner.byte
  let parameters ← Scanner.byte
  return { mode, chroma, width, height, blocksW, blocksH
           ratio := parameters &&& ~~~FrameHeader.weightedFlag
           prediction := if parameters &&& FrameHeader.weightedFlag = 0 then .average
             else .weighted }

def read : Scanner FrameHeader := do
  let h ← readFields
  validate h
  return h

end Header

/-- Downsample the blocks of both grids as a mesh and a quality ask for. -/
def sampleGrids (pow : Power) (g : FrameGrids) (chroma : ChromaFormat) (s : Sampling) :
    Run FrameGrids := do
  let luma ← applyMesh pow g.luma s.mesh s.quality.toNat
  let chroma ← Grid.subsample luma chroma.factors.1 chroma.factors.2
  return ⟨luma, chroma⟩

def totalSamples (g : FrameGrids) : Run Nat := do
  let luma ← Grid.totalSamples g.luma
  let chroma ← mul 2 (← Grid.totalSamples g.chroma)
  add luma chroma

/-- Everything in a frame before its hop symbols. -/
structure Summary where
  header : FrameHeader
  seeds : Channels (List UInt8)
  chromaTable : Table
  lumaTable : Table
  sampling : Option Sampling

namespace Summary

/-- Read quality and mesh, and sample the grids by them, if the mode has them. -/
def readSampling (pow : Power) (h : FrameHeader) (full : FrameGrids) :
    Scanner (Option Sampling × FrameGrids) :=
  if h.mode = .advanced then do
    let quality ← Scanner.byte
    if Sampling.qualityMax < quality then refuse (.header .qualityTooHigh)
    let mesh ← Mesh.read full.luma.blocksW full.luma.blocksH
    let grids ← sampleGrids pow full h.chroma ⟨quality, mesh⟩
    return (some ⟨quality, mesh⟩, grids)
  else return (none, full)

/-- Read everything before the hop symbols, with the grids it describes. -/
def read (pow : Power) : Scanner (Summary × FrameGrids) := do
  let header ← Header.read
  let full ← Header.grids header
  let luma ← Scanner.list Scanner.byte full.luma.blocks.size
  let chromaA ← Scanner.list Scanner.byte full.chroma.blocks.size
  let chromaB ← Scanner.list Scanner.byte full.chroma.blocks.size
  let chromaTable ← Table.read
  let lumaTable ← Table.read
  let (sampling, grids) ← readSampling pow header full
  return (⟨header, ⟨luma, chromaA, chromaB⟩, chromaTable, lumaTable, sampling⟩, grids)

/-- The summary of a coded frame and its length in bits. -/
def inspect (pow : Power) (data : Bytes) : Run (Summary × Nat) := do
  let (result, c) ← (read pow).run (← Cursor.ofBytes data)
  return (result.1, c.consumed)

def writeSampling : Option Sampling → Packer → Run Packer
  | none, p => .ok p
  | some s, p => do Mesh.write s.mesh (← p.writeByte s.quality)

/-- Write everything before the hop symbols. -/
def write (s : Summary) (p : Packer) : Run Packer := do
  let p ← Header.write s.header p
  let p ← Packer.writeAll (Packer.writeAll Packer.writeByte) s.seeds.toList p
  let p ← s.chromaTable.writeLengths p
  let p ← s.lumaTable.writeLengths p
  writeSampling s.sampling p

end Summary

end HopCodec.Machine
