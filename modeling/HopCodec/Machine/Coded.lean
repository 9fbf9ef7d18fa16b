/-
Coding frames on the machine.
-/
import HopCodec.Codec
import HopCodec.Machine.Decoded
import HopCodec.Machine.Estimate

namespace HopCodec.Machine

/-- A coded frame with what a decoder will make of it. -/
structure Coded where
  header : FrameHeader
  bytes : Bytes
  picture : Picture
  mesh : Option RelevanceMesh
  lumaHops : Nat
  chromaHops : Nat

/-- A header fault found while encoding is a fault of the caller's arguments. -/
def Stop.asArgument : Stop → Stop
  | .fault cause => .fault cause.asArgument
  | .trap cause => .trap cause

namespace Forecast

def codeAt (f : Forecast) (plane : Canvas) (g : BlockGrid) (i : Nat) : Run CountedBlock := do
  f.codeBlock plane (← fetch g.blocks i)

def codePlane (f : Forecast) (plane : Canvas) (g : BlockGrid) : Run (List CountedBlock) :=
  (List.range g.blocks.size).mapM (f.codeAt plane g)

def codePlanes (f : Forecast) (planes : Channels Canvas) (g : FrameGrids) :
    Run (Channels (List CountedBlock)) := do
  let luma ← f.codePlane planes.luma g.luma
  let chromaA ← f.codePlane planes.chromaA g.chroma
  let chromaB ← f.codePlane planes.chromaB g.chroma
  return ⟨luma, chromaA, chromaB⟩

end Forecast

namespace Counts

def addBlocks (m : Histogram) (blocks : List CountedBlock) : Run Histogram :=
  blocks.foldlM (fun m b => merge m b.counts) m

/-- The room that a writer reserves for a frame. -/
def capacity (lumaTable chromaTable : Table) (luma chroma : Histogram) : Run Nat := do
  let bits ← add (← encodedBits lumaTable luma) (← encodedBits chromaTable chroma)
  add (bits / 8) 1024

end Counts

def Table.writeHops (t : Table) (blocks : List CountedBlock) : Packer → Run Packer :=
  Packer.writeAll (fun b => Packer.writeAll t.writeSymbol b.block.hops.toList) blocks

def Summary.emit (s : Summary) (blocks : Channels (List CountedBlock)) : Run Bytes := do
  let p ← s.write .empty
  let p ← s.lumaTable.writeHops blocks.luma p
  let p ← s.chromaTable.writeHops blocks.chromaA p
  let p ← s.chromaTable.writeHops blocks.chromaB p
  p.finish

/-- Put a frame together from the block pixels of its planes. -/
def assemble (h : FrameHeader) (g : FrameGrids) (pixels : Channels (List Bytes)) :
    Run Picture := do
  let (chromaW, chromaH) ← Header.chromaSize h
  let luma ← Grid.assemble g.luma h.width.toNat h.height.toNat pixels.luma
  let chromaA ← Grid.assemble g.chroma chromaW chromaH pixels.chromaA
  let chromaB ← Grid.assemble g.chroma chromaW chromaH pixels.chromaB
  Picture.ofPlanes h.chroma ⟨luma, chromaA, chromaB⟩

namespace Engine

/-- The header of a frame under given settings, if it is a valid one. -/
def headerOf (s : Settings) (frame : Picture) : Run FrameHeader := do
  let luma := frame.planes.luma
  if halfSize ≤ luma.width then refuse (.argument .frameTooWide)
  if halfSize ≤ luma.height then refuse (.argument .frameTooTall)
  let header := s.header frame.chroma (UInt32.ofNat luma.width) (UInt32.ofNat luma.height)
  (Header.validate header).mapError Stop.asArgument
  return header

/-- The sampling of a frame and the grids it asks for. -/
def sample (e : Engine) (f : Forecast) (s : Settings) (frame : Picture)
    (mesh : Option RelevanceMesh) (full : FrameGrids) : Run (Option Sampling × FrameGrids) :=
  if s.mode = .advanced then do
    let mesh ← mesh.elim (f.estimate frame.planes.luma full.luma) pure
    let grids ← sampleGrids e.pow full frame.chroma ⟨s.quality, mesh⟩
    return (some ⟨s.quality, mesh⟩, grids)
  else return (none, full)

/-- Code the blocks of sampled grids and write everything down. -/
def encodeSampled (f : Forecast) (header : FrameHeader) (planes : Channels Canvas)
    (sampling : Option Sampling) (g : FrameGrids) : Run Coded := do
  let blocks ← f.codePlanes planes g
  let luma ← Counts.addBlocks Histogram.empty blocks.luma
  let chroma ← Counts.addBlocks (← Counts.addBlocks Histogram.empty blocks.chromaA) blocks.chromaB
  let lumaTable ← Counts.codeTable luma
  let chromaTable ← Counts.codeTable chroma
  let _ ← Counts.capacity lumaTable chromaTable luma chroma
  let seeds := blocks.map (·.map (·.block.seed))
  let bytes ← Summary.emit ⟨header, seeds, chromaTable, lumaTable, sampling⟩ blocks
  let picture ← assemble header g (blocks.map (·.map (·.block.pixels)))
  let lumaHops ← Counts.total luma
  let chromaHops ← Counts.total chroma
  return ⟨header, bytes, picture, sampling.map Sampling.mesh, lumaHops, chromaHops⟩

/-- Code a frame, with a given mesh or without. -/
def encodeFrame (e : Engine) (s : Settings) (frame : Picture) (mesh : Option RelevanceMesh) :
    Run Coded := do
  let f ← Forecast.new e.ladders s.ratio.toNat s.prediction
  let header ← headerOf s frame
  let full ← (Header.grids header).mapError Stop.asArgument
  let (sampling, grids) ← e.sample f s frame mesh full
  encodeSampled f header frame.planes sampling grids

/-- Code a frame in the mode of the settings. -/
def encode (e : Engine) (s : Settings) (frame : Picture) : Run Coded :=
  e.encodeFrame s frame none

def encodeWithMesh (e : Engine) (s : Settings) (frame : Picture) (mesh : RelevanceMesh) :
    Run Coded :=
  if s.mode ≠ .advanced then refuse (.argument .meshForBasicMode)
  else e.encodeFrame s frame (some mesh)

end Engine

end HopCodec.Machine
