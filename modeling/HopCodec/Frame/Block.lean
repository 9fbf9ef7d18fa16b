/-
Coding single blocks and putting planes together from them.
-/
import HopCodec.Frame.Header
import HopCodec.Relevance.Estimate

namespace HopCodec

/-- A coded block: its seed and hops, and the pixels a decoder rebuilds from them. -/
structure CodedBlock where
  seed : UInt8
  hops : Array Hop
  pixels : Bytes

namespace Predictor

/-- The pixels of a block, row by row, from the scan of its samples. -/
def blockPixels (b : Block) (scan : Scan) : Bytes :=
  if b.isDownsampled then (BlockCells.ofBlock b).upsample scan.values else scan.values

/-- The samples of a block, row by row, from its pixels. -/
def blockSamples (b : Block) (pixels : Bytes) : Bytes :=
  if b.isDownsampled then (BlockCells.ofBlock b).downsample pixels b.width else pixels

def codeBlock (p : Predictor) (plane : Plane) (b : Block) : CodedBlock :=
  let samples := blockSamples b (plane.crop b.x.start b.y.start b.width b.height)
  let scan := p.encodeBlock b.x.samples b.y.samples samples
  ⟨samples.getD 0 0, scan.hops, blockPixels b scan⟩

def rebuildBlock (p : Predictor) (b : Block) (seed : UInt8) (hops : Array Hop) : Bytes :=
  blockPixels b (p.decodeBlock b.x.samples b.y.samples seed hops)

end Predictor

namespace BlockGrid

/-- Put a plane together from the pixels of its blocks. -/
def assemble (g : BlockGrid) (width height : Nat) (pixels : List Bytes) : Except Fault Plane := do
  let plane ← Plane.new? width height
  return (g.blocks.toList.zip pixels).foldl
    (fun plane (b, pixels) => plane.paste b.x.start b.y.start b.width b.height pixels) plane

end BlockGrid

/-- Put a frame together from the block pixels of its planes. -/
def FrameGrids.assemble (g : FrameGrids) (h : FrameHeader) (pixels : Channels (List Bytes)) :
    Except Fault Frame := do
  let (width, height) := h.lumaSize
  let (chromaW, chromaH) := h.chromaSize
  let luma ← g.luma.assemble width height pixels.luma
  let a ← g.chroma.assemble chromaW chromaH pixels.chromaA
  let b ← g.chroma.assemble chromaW chromaH pixels.chromaB
  Frame.ofPlanes? h.chroma ⟨luma, a, b⟩

end HopCodec
