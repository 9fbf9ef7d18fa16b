/-
What a stream transmits, pixels aside: its prologue and the hops of every block.  A reader of a
coded frame finds the hops that the encoder chose.
-/
import HopCodec.Proofs.Frame.RoundTrip

namespace HopCodec

/-- The prologue of a stream and the hops of the blocks of each channel. -/
structure Transmission where
  prologue : Prologue
  hops : Channels (List (Array Hop))

namespace Transmission

def read (pow : Power) : Reading Transmission := do
  let (prologue, grids) ← Prologue.read pow
  return ⟨prologue, ← Model.readHops prologue.lumaTable prologue.chromaTable grids⟩

/-- Find prologue and hops in a byte string. -/
def receive (pow : Power) (data : Bytes) : Except Fault Transmission :=
  match (read pow).run (BitReader.ofBytes data) with
  | .ok t _ => .ok t
  | .error fault _ => .error fault

end Transmission

open Reading

variable {m : Model} {s : Settings} {f : Frame} {mesh : Option RelevanceMesh}

/-- A reader finds the header, the seeds and hops of every block, tables of the same codewords and
the sampling of a coded frame. -/
theorem Coding.exists_receive (c : Coding m s f mesh) (hs : s.validate = .ok ()) {e : CodedFrame}
    (he : m.encodeFrame s f mesh = .ok e) :
    ∃ chromaTable lumaTable, Transmission.receive m.pow e.bytes =
        .ok ⟨⟨c.header, c.blocks.map (·.map CodedBlock.seed), chromaTable, lumaTable, c.sampling⟩,
          c.blocks.map (·.map CodedBlock.hops)⟩ ∧
      (∀ hop, chromaTable.code? hop = c.chromaTable.code? hop) ∧
      ∀ hop, lumaTable.code? hop = c.lumaTable.code? hop := by
  obtain ⟨chromaTable, lumaTable, hprologue, ⟨hchroma, hchromaCodes⟩, ⟨hluma, hlumaCodes⟩⟩ :=
    Prologue.reads_read (c.sendable hs) m.pow c.prologue_grids
  have hhops := c.reads_readHops hs hluma hlumaCodes hchroma hchromaCodes
  have hreads : Reads (Transmission.read m.pow) (c.prologue.bits ++ c.symbolBits) _ :=
    hprologue.bind (hhops.map fun hops =>
      Transmission.mk ⟨c.header, c.prologue.seeds, chromaTable, lumaTable, c.sampling⟩ hops)
  obtain ⟨r, hrun, -⟩ := hreads.exists_run (c.isPrefix_bitsOf he)
  refine ⟨chromaTable, lumaTable, ?_, hchromaCodes, hlumaCodes⟩
  unfold Transmission.receive
  rw [hrun]
  rfl

end HopCodec
