/-
The prologue of a coded frame: everything before its hop symbols.  Seeds come per channel in
block order, the chroma table before the luma table, and in advanced mode quality and mesh last.
-/
import HopCodec.Block.Shape
import HopCodec.Frame.Header
import HopCodec.Huffman.Symbols

namespace HopCodec

/-- What decides the downsampling of an advanced frame. -/
structure Sampling where
  quality : UInt8
  mesh : RelevanceMesh

def Sampling.qualityMax : UInt8 := 99

/-- Everything in a frame before its hop symbols. -/
structure Prologue where
  header : FrameHeader
  seeds : Channels (List UInt8)
  chromaTable : CodeTable
  lumaTable : CodeTable
  sampling : Option Sampling

/-- Downsample the blocks of both grids as a mesh and a quality ask for. -/
def FrameGrids.sample (pow : Power) (g : FrameGrids) (chroma : ChromaFormat) (s : Sampling) :
    Except Fault FrameGrids := do
  let luma ← g.luma.applyMesh pow s.mesh s.quality.toNat
  let chroma ← luma.subsample chroma.factors.1 chroma.factors.2
  return ⟨luma, chroma⟩

namespace Prologue

/-- The table of each channel. -/
def tables (p : Prologue) : Channels CodeTable :=
  ⟨p.lumaTable, p.chromaTable, p.chromaTable⟩

/-- The grids as sampled. -/
def grids (pow : Power) (p : Prologue) : Except Fault FrameGrids := do
  let full ← p.header.grids
  match p.sampling with
  | none => return full
  | some s => full.sample pow p.header.chroma s

def writeSeeds (w : BitWriter) (seeds : List UInt8) : BitWriter :=
  seeds.foldl BitWriter.writeByte w

def writeSampling (w : BitWriter) : Option Sampling → BitWriter
  | none => w
  | some s => s.mesh.write (w.writeByte s.quality)

def write (p : Prologue) (w : BitWriter) : BitWriter :=
  let w := p.header.write w
  let w := p.seeds.toList.foldl writeSeeds w
  let w := p.chromaTable.writeLengths w
  let w := p.lumaTable.writeLengths w
  writeSampling w p.sampling

/-- Read quality and mesh, if the mode has them. -/
def readSampling (h : FrameHeader) : Reading (Option Sampling) :=
  if h.mode = .advanced then do
    let quality ← Reading.byte
    if Sampling.qualityMax < quality then Reading.refuse (.header .qualityTooHigh)
    let mesh ← RelevanceMesh.read h.blocksW.toNat h.blocksH.toNat
    return some ⟨quality, mesh⟩
  else return none

/-- Read a prologue with the grids it describes. -/
def read (pow : Power) : Reading (Prologue × FrameGrids) := do
  let header ← FrameHeader.read
  let full ← Reading.lift header.grids
  let luma ← Reading.list Reading.byte full.luma.blocks.size
  let chromaA ← Reading.list Reading.byte full.chroma.blocks.size
  let chromaB ← Reading.list Reading.byte full.chroma.blocks.size
  let chromaTable ← CodeTable.read
  let lumaTable ← CodeTable.read
  let sampling ← readSampling header
  let p : Prologue := ⟨header, ⟨luma, chromaA, chromaB⟩, chromaTable, lumaTable, sampling⟩
  let grids ← Reading.lift (p.grids pow)
  return (p, grids)

/-- The prologue of a coded frame and its length in bits. -/
def inspect (pow : Power) (data : Bytes) : Except Fault (Prologue × Nat) :=
  match (read pow).run (BitReader.ofBytes data) with
  | .ok (p, _) r => .ok (p, r.consumed)
  | .error fault _ => .error fault

end Prologue

end HopCodec
