/-
Coding whole frames: blocks to hops, hops to codewords, and everything into one bit stream.
-/
import HopCodec.Frame.Block
import HopCodec.Frame.Prologue
import HopCodec.Settings

namespace HopCodec

/-- The numeric ground of a codec: the tables its predictors read and the power function behind
its densities. -/
structure Model where
  tables : Tables
  pow : Power

/-- A coded frame with what a decoder will make of it. -/
structure CodedFrame where
  header : FrameHeader
  bytes : Bytes
  reconstruction : Frame
  /-- The mesh used, in advanced mode. -/
  mesh : Option RelevanceMesh
  /-- How many luma and chroma hops the stream holds. -/
  lumaHops : Nat
  chromaHops : Nat

namespace CodedFrame

/-- A line about the frame for a verbose log. -/
def describe (c : CodedFrame) : String :=
  let h := c.header
  s!"lhe: encoded {h.width}x{h.height} {h.mode.name} frame ({h.chroma.name}), " ++
    s!"{h.blocksW}x{h.blocksH} blocks, {c.lumaHops} luma + {c.chromaHops} chroma hops -> " ++
    s!"{c.bytes.size} bytes\n"

end CodedFrame

namespace Model

/-- The hops of all blocks of a plane together. -/
def histogram (blocks : List CodedBlock) : Histogram :=
  blocks.foldl (fun m b => m.merge (Histogram.ofList b.hops.toList)) Histogram.empty

def writeHops (t : CodeTable) (w : BitWriter) (blocks : List CodedBlock) :
    Except Fault BitWriter :=
  blocks.foldlM (fun w b => t.writeSymbols w b.hops.toList) w

/-- The header of a frame under given settings, if it is a valid one. -/
def headerOf (s : Settings) (f : Frame) : Except Fault FrameHeader := do
  if 1 <<< 32 ≤ f.width then throw (.argument .frameTooWide)
  if 1 <<< 32 ≤ f.height then throw (.argument .frameTooTall)
  let header := s.header f.chroma (UInt32.ofNat f.width) (UInt32.ofNat f.height)
  header.validate.mapError Fault.asArgument
  return header

/-- The sampling of a frame: in advanced mode the given mesh, or else an estimated one. -/
def samplingOf (p : Predictor) (s : Settings) (f : Frame) (mesh : Option RelevanceMesh)
    (full : FrameGrids) : Option Sampling :=
  if s.mode = .advanced then
    some ⟨s.quality, mesh.getD (Relevance.estimate p f.planes.luma full.luma)⟩
  else none

def codeBlocks (p : Predictor) (f : Frame) (g : FrameGrids) : Channels (List CodedBlock) :=
  let code (plane : Plane) (grid : BlockGrid) := grid.blocks.toList.map (p.codeBlock plane)
  ⟨code f.planes.luma g.luma, code f.planes.chromaA g.chroma, code f.planes.chromaB g.chroma⟩

def encodeFrame (m : Model) (s : Settings) (f : Frame) (mesh : Option RelevanceMesh) :
    Except Fault CodedFrame := do
  let p ← Predictor.new? m.tables s.ratio.toNat s.prediction
  let header ← headerOf s f
  let full ← header.grids.mapError Fault.asArgument
  let sampling := samplingOf p s f mesh full
  let grids ← match sampling with
    | none => pure full
    | some sampling => full.sample m.pow f.chroma sampling
  let blocks := codeBlocks p f grids
  let lumaHops := histogram blocks.luma
  let chromaHops := (histogram blocks.chromaA).merge (histogram blocks.chromaB)
  let lumaTable ← lumaHops.codeTable.mapError Fault.table
  let chromaTable ← chromaHops.codeTable.mapError Fault.table
  let prologue : Prologue :=
    ⟨header, blocks.map (·.map CodedBlock.seed), chromaTable, lumaTable, sampling⟩
  let w := prologue.write .empty
  let w ← writeHops lumaTable w blocks.luma
  let w ← writeHops chromaTable w blocks.chromaA
  let w ← writeHops chromaTable w blocks.chromaB
  let reconstruction ← grids.assemble header (blocks.map (·.map CodedBlock.pixels))
  return { header, bytes := w.finish, reconstruction, mesh := sampling.map Sampling.mesh
           lumaHops := lumaHops.total, chromaHops := chromaHops.total }

end Model

end HopCodec
