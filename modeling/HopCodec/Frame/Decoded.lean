/-
Rebuilding frames from their bit stream.
-/
import HopCodec.Frame.Coded

namespace HopCodec

/-- A decoded frame with what its stream said. -/
structure DecodedFrame where
  header : FrameHeader
  frame : Frame
  /-- Bits read up to the last hop symbol. -/
  consumed : Nat

namespace DecodedFrame

/-- A line about the frame for a verbose log. -/
def describe (d : DecodedFrame) (data : Bytes) : String :=
  let h := d.header
  s!"lhe: decoded {h.width}x{h.height} {h.mode.name} frame ({h.chroma.name}), " ++
    s!"{h.blocksW}x{h.blocksH} blocks, {d.consumed} of {data.size * 8} bits\n"

end DecodedFrame

namespace Model

def readBlocks (t : CodeTable) : List Block → Reading (List (Array Hop))
  | [] => return []
  | b :: rest => do
      let hops ← t.readSymbols b.sampleCount
      return hops :: (← readBlocks t rest)

def rebuildBlocks (p : Predictor) (g : BlockGrid) (seeds : List UInt8)
    (hops : List (Array Hop)) : List Bytes :=
  (g.blocks.toList.zip (seeds.zip hops)).map fun (b, seed, hops) => p.rebuildBlock b seed hops

/-- Read and rebuild a frame.  Every symbol takes at least one bit, so a stream with fewer bits
left than samples is refused before any symbol is read. -/
def readFrame (m : Model) : Reading (FrameHeader × Frame) := do
  let (prologue, grids) ← Prologue.read m.pow
  let header := prologue.header
  let p ← Reading.lift (Predictor.new? m.tables header.ratio.toNat header.prediction)
  let r ← get
  if r.remaining < grids.sampleCount then Reading.refuse .truncated
  let luma ← readBlocks prologue.lumaTable grids.luma.blocks.toList
  let chromaA ← readBlocks prologue.chromaTable grids.chroma.blocks.toList
  let chromaB ← readBlocks prologue.chromaTable grids.chroma.blocks.toList
  let frame ← Reading.lift (grids.assemble header
    ⟨rebuildBlocks p grids.luma prologue.seeds.luma luma,
      rebuildBlocks p grids.chroma prologue.seeds.chromaA chromaA,
      rebuildBlocks p grids.chroma prologue.seeds.chromaB chromaB⟩)
  return (header, frame)

def decodeFrame (m : Model) (data : Bytes) : Except Fault DecodedFrame :=
  match m.readFrame.run (BitReader.ofBytes data) with
  | .ok (header, frame) r => .ok ⟨header, frame, r.consumed⟩
  | .error fault _ => .error fault

end Model

end HopCodec
