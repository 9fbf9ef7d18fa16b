/-
Rebuilding frames on the machine.
-/
import HopCodec.Frame.Decoded
import HopCodec.Machine.Block
import HopCodec.Machine.Header

namespace HopCodec.Machine

/-- A prediction rule for one of the ratios that the tables cover. -/
def Forecast.new (l : Ladders) (ratio : Nat) (prediction : Prediction) : Run Forecast :=
  if Predictor.ratioMin ≤ ratio ∧ ratio ≤ Predictor.ratioMax then .ok ⟨l, ratio, prediction⟩
  else refuse (.argument (.header .ratioOutOfRange))

/-- Rebuild the `i`-th block of a plane. -/
def Forecast.rebuildAt (f : Forecast) (g : BlockGrid) (seeds : Array UInt8)
    (hops : Array (Array Hop)) (i : Nat) : Run Bytes := do
  let b ← fetch g.blocks i
  let seed ← fetch seeds i
  let taken ← fetch hops i
  f.rebuildBlock b seed taken

def Forecast.rebuildPlane (f : Forecast) (g : BlockGrid) (width height : Nat)
    (seeds : List UInt8) (hops : List (Array Hop)) : Run Canvas := do
  let pixels ← (List.range g.blocks.size).mapM (f.rebuildAt g seeds.toArray hops.toArray)
  Grid.assemble g width height pixels

def Forecast.rebuild (f : Forecast) (h : FrameHeader) (g : FrameGrids)
    (seeds : Channels (List UInt8)) (hops : Channels (List (Array Hop))) : Run Picture := do
  let (chromaW, chromaH) ← Header.chromaSize h
  let luma ← f.rebuildPlane g.luma h.width.toNat h.height.toNat seeds.luma hops.luma
  let chromaA ← f.rebuildPlane g.chroma chromaW chromaH seeds.chromaA hops.chromaA
  let chromaB ← f.rebuildPlane g.chroma chromaW chromaH seeds.chromaB hops.chromaB
  Picture.ofPlanes h.chroma ⟨luma, chromaA, chromaB⟩

/-- The tables and the power function of a codec. -/
structure Engine where
  ladders : Ladders
  pow : Power

/-- A decoded frame with what its stream said. -/
structure Decoded where
  header : FrameHeader
  picture : Picture
  consumed : Nat

namespace Engine

def ofModel (m : Model) : Engine :=
  ⟨.ofTables m.tables, m.pow⟩

def readBlocks (t : Table) : List Block → Scanner (List (Array Hop))
  | [] => return []
  | b :: rest => do
      let hops ← t.readSymbols (← sampleCount b)
      return hops :: (← readBlocks t rest)

def readHops (lumaTable chromaTable : Table) (g : FrameGrids) :
    Scanner (Channels (List (Array Hop))) := do
  let luma ← readBlocks lumaTable g.luma.blocks.toList
  let chromaA ← readBlocks chromaTable g.chroma.blocks.toList
  let chromaB ← readBlocks chromaTable g.chroma.blocks.toList
  return ⟨luma, chromaA, chromaB⟩

def readFrame (e : Engine) : Scanner (FrameHeader × Picture) := do
  let result ← Summary.read e.pow
  let summary := result.1
  let header := summary.header
  let f ← Forecast.new e.ladders header.ratio.toNat header.prediction
  let total ← totalSamples result.2
  if (← Scanner.remaining) < total then refuse .truncated
  let hops ← readHops summary.lumaTable summary.chromaTable result.2
  let picture ← f.rebuild header result.2 summary.seeds hops
  return (header, picture)

/-- Decode a frame.  The log tells how many of the data's bits were read. -/
def decode (e : Engine) (data : Bytes) : Run Decoded := do
  let (result, c) ← e.readFrame.run (← Cursor.ofBytes data)
  let _ ← mul data.size 8
  return ⟨result.1, result.2, c.consumed⟩

end Engine

end HopCodec.Machine
