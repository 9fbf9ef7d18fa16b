/-
What decoding depends on.  No step of a decoder looks beyond the bits it takes, and each fails for
the end of the data where these run out.  The check that a bit is left for every sample is no
exception, as every symbol takes one.
-/
import HopCodec.Proofs.Frame.Received
import HopCodec.Proofs.Frame.RoundTrip
import HopCodec.Proofs.Huffman.SymbolStream
import HopCodec.Proofs.Machine.Decoded

namespace HopCodec

open Reading

theorem FrameHeader.determined_readFields : Determined readFields :=
  determined_byte.bind fun _ _ _ _ => (Determined.lift _).bind fun _ _ _ _ =>
    (Determined.lift _).bind fun _ _ _ _ => determined_word.bind fun _ _ _ _ =>
      determined_word.bind fun _ _ _ _ => determined_byte.bind fun _ _ _ _ =>
        determined_byte.bind fun _ _ _ _ => determined_byte.bind fun _ _ _ _ => .pure _

theorem FrameHeader.determined_read : Determined read :=
  determined_readFields.bind fun _ _ _ _ => (Determined.lift _).bind fun _ _ _ _ => .pure _

namespace RelevanceMesh

theorem determined_readCorner : Determined readCorner := by
  refine (determined_bits levelBits).bind fun _ x _ _ =>
    (determined_bits levelBits).bind fun _ y _ _ => ?_
  cases RelevanceLevel.ofIndex? x with
  | none => exact .refuse _
  | some levelX =>
      cases RelevanceLevel.ofIndex? y with
      | none => exact .refuse _
      | some levelY => exact .pure _

theorem determined_read (blocksW blocksH : Nat) : Determined (read blocksW blocksH) :=
  (determined_readCorner.list _).bind fun _ _ _ _ => .pure _

end RelevanceMesh

namespace CodeTable

theorem determined_read : Determined read :=
  ((determined_bits lengthBits).list 9).bind fun _ _ _ _ => .lift _

theorem determined_readSymbols (t : CodeTable) (n : Nat) : Determined (t.readSymbols n) := by
  rw [readSymbols_eq]
  exact (Determined.lift _).bind fun _ _ _ _ =>
    ((t.determined_extendSymbol _ _).list n).bind fun _ _ _ _ => .pure _

/-- Every symbol that was read took at least a bit. -/
theorem consumed_of_readSymbols {t : CodeTable} (ht : t.Sound) {n : Nat} {hops : Array Hop}
    {r r' : BitReader} (hrun : (t.readSymbols n).run r = .ok hops r') :
    r.consumed + n ≤ r'.consumed := by
  obtain ⟨hsize, hcovers, htakes⟩ := of_readSymbols hrun
  have hbits := length_le_symbolBits ht hcovers
  rw [Array.length_toList, hsize] at hbits
  rw [htakes.consumed_eq]
  exact Nat.add_le_add_left hbits _

end CodeTable

namespace Prologue

theorem determined_readSampling (h : FrameHeader) : Determined (readSampling h) := by
  unfold readSampling
  split
  · refine determined_byte.bind fun _ quality _ _ => ?_
    split
    · exact (Determined.refuse _).bind fun _ _ _ _ =>
        (RelevanceMesh.determined_read _ _).bind fun _ _ _ _ => .pure _
    · exact (RelevanceMesh.determined_read _ _).bind fun _ _ _ _ => .pure _
  · exact .pure _

theorem determined_read (pow : Power) : Determined (read pow) :=
  FrameHeader.determined_read.bind fun _ _ _ _ => (Determined.lift _).bind fun _ _ _ _ =>
    (determined_byte.list _).bind fun _ _ _ _ => (determined_byte.list _).bind fun _ _ _ _ =>
      (determined_byte.list _).bind fun _ _ _ _ => CodeTable.determined_read.bind fun _ _ _ _ =>
        CodeTable.determined_read.bind fun _ _ _ _ =>
          (determined_readSampling _).bind fun _ _ _ _ => (Determined.lift _).bind fun _ _ _ _ =>
            .pure _

end Prologue

namespace Model

theorem determined_readBlocks (t : CodeTable) (blocks : List Block) :
    Determined (readBlocks t blocks) := by
  induction blocks with
  | nil => exact .pure []
  | cons b rest ih =>
      exact (t.determined_readSymbols _).bind fun _ hops _ _ => ih.bind fun _ _ _ _ => .pure _

theorem determined_readHops (lumaTable chromaTable : CodeTable) (g : FrameGrids) :
    Determined (readHops lumaTable chromaTable g) :=
  (determined_readBlocks _ _).bind fun _ _ _ _ => (determined_readBlocks _ _).bind fun _ _ _ _ =>
    (determined_readBlocks _ _).bind fun _ _ _ _ => .pure _

theorem determined_readSampled (p : Predictor) (prologue : Prologue) (g : FrameGrids) :
    Determined (readSampled p prologue g) := by
  rw [readSampled_eq_readHops]
  exact (determined_readHops _ _ _).bind fun _ _ _ _ => (Determined.lift _).bind
    fun _ _ _ _ => .pure _

/-- The hops of a plane took at least a bit for each of its samples. -/
theorem consumed_of_readBlocks {t : CodeTable} (ht : t.Sound) {blocks : List Block}
    {hops : List (Array Hop)} {r r' : BitReader}
    (hrun : (readBlocks t blocks).run r = .ok hops r') :
    r.consumed + (blocks.map Block.sampleCount).sum ≤ r'.consumed := by
  induction blocks generalizing r hops with
  | nil =>
      cases hrun
      exact Nat.le_refl _
  | cons b rest ih =>
      obtain ⟨first, s, hfirst, hrun⟩ := run_bind_eq_ok_iff.mp hrun
      obtain ⟨others, s', hothers, hrun⟩ := run_bind_eq_ok_iff.mp hrun
      cases hrun
      have hhead := CodeTable.consumed_of_readSymbols ht hfirst
      have htail := ih hothers
      rw [List.map_cons, List.sum_cons]
      omega

/-- The hops of a frame took at least a bit for each of its samples. -/
theorem consumed_of_readHops {lumaTable chromaTable : CodeTable} {g : FrameGrids}
    (hluma : lumaTable.Sound) (hchroma : chromaTable.Sound) {hops : Channels (List (Array Hop))}
    {r r' : BitReader} (hrun : (readHops lumaTable chromaTable g).run r = .ok hops r') :
    r.consumed + g.sampleCount ≤ r'.consumed := by
  obtain ⟨_, s, hlumaRun, hrun⟩ := run_bind_eq_ok_iff.mp hrun
  obtain ⟨_, s', hchromaARun, hrun⟩ := run_bind_eq_ok_iff.mp hrun
  obtain ⟨_, s'', hchromaBRun, hrun⟩ := run_bind_eq_ok_iff.mp hrun
  cases hrun
  have hl := consumed_of_readBlocks hluma hlumaRun
  have ha := consumed_of_readBlocks hchroma hchromaARun
  have hb := consumed_of_readBlocks hchroma hchromaBRun
  rw [FrameGrids.sampleCount, g.luma.sampleCount_eq_sum, g.chroma.sampleCount_eq_sum]
  omega

theorem consumed_of_readSampled {p : Predictor} {prologue : Prologue} {g : FrameGrids}
    (hluma : prologue.lumaTable.Sound) (hchroma : prologue.chromaTable.Sound)
    {read : FrameHeader × Frame} {r r' : BitReader}
    (hrun : (readSampled p prologue g).run r = .ok read r') :
    r.consumed + g.sampleCount ≤ r'.consumed := by
  rw [readSampled_eq_readHops] at hrun
  obtain ⟨hops, s, hhops, hrun⟩ := run_bind_eq_ok_iff.mp hrun
  obtain ⟨_, s', hassemble, hrun⟩ := run_bind_eq_ok_iff.mp hrun
  obtain ⟨-, rfl⟩ := run_lift_eq_ok_iff.mp hassemble
  cases hrun
  exact consumed_of_readHops hluma hchroma hhops

theorem determined_readFrame (m : Model) : Determined m.readFrame := by
  rw [readFrame_eq_readSampled]
  refine (Prologue.determined_read m.pow).bind fun _ received _ hread => ?_
  obtain ⟨prologue, g⟩ := received
  have hreceived := Prologue.received_of_read hread
  refine (Determined.lift _).bind fun _ p _ _ => ?_
  exact (determined_readSampled p prologue g).guard fun _ _ _ =>
    consumed_of_readSampled hreceived.luma_table hreceived.chroma_table

variable {m : Model} {data : Bytes} {d : DecodedFrame}

theorem consumed_of_decodeFrame (hd : m.decodeFrame data = .ok d) :
    d.consumed ≤ 8 * data.size := by
  obtain ⟨r, hrun, hconsumed⟩ := decodeFrame_eq_ok_iff.mp hd
  obtain ⟨bits, htakes, -, -⟩ := m.determined_readFrame hrun
  exact hconsumed ▸ htakes.consumed_le

theorem decodeFrame_of_agree (hd : m.decodeFrame data = .ok d) {other : Bytes}
    (hlong : d.consumed ≤ 8 * other.size)
    (hagree : ∀ i < d.consumed, bitAt other i = bitAt data i) :
    m.decodeFrame other = .ok d := by
  obtain ⟨r, hrun, hconsumed⟩ := decodeFrame_eq_ok_iff.mp hd
  rw [← hconsumed] at hlong hagree
  obtain ⟨s, hrun', hsame⟩ := m.determined_readFrame.run_of_agree hrun hlong hagree
  exact decodeFrame_eq_ok_iff.mpr ⟨s, hrun', hsame.trans hconsumed⟩

theorem decodeFrame_of_cut (hd : m.decodeFrame data = .ok d) {size : Nat}
    (hcut : 8 * size < d.consumed) :
    m.decodeFrame (data.extract 0 size) = .error .truncated := by
  obtain ⟨r, hrun, hconsumed⟩ := decodeFrame_eq_ok_iff.mp hd
  rw [← hconsumed] at hcut
  obtain ⟨s, hrun'⟩ := m.determined_readFrame.run_of_cut hrun hcut
  simp only [decodeFrame, hrun']

end Model

namespace Codec

/-- Decoding is determined by the bits it takes.  Other data that agree on them are decoded alike,
and where the data end within them they are found too short.  A coded frame has no byte beyond
them, so that no part of one can be cut off unnoticed.  The machine, which buffers the bits it
reads, decodes alike. -/
theorem decode_determined (c d : Codec) (hmodel : d.model = c.model) :
    (∀ data decoded, d.decode data = .ok decoded →
      decoded.consumed ≤ 8 * data.size ∧
        (∀ other : Bytes, decoded.consumed ≤ 8 * other.size →
          (∀ i < decoded.consumed, bitAt other i = bitAt data i) →
            d.decode other = .ok decoded) ∧
        ∀ size, 8 * size < decoded.consumed →
          d.decode (data.extract 0 size) = .error .truncated) ∧
    (∀ f e, (c.encode f = .ok e ∨ ∃ mesh, c.encodeWithMesh f mesh = .ok e) →
      ∃ decoded, d.decode e.bytes = .ok decoded ∧
        (decoded.consumed + 7) / 8 = e.bytes.size ∧
        ∀ size < e.bytes.size, d.decode (e.bytes.extract 0 size) = .error .truncated) ∧
    ∀ data : Bytes, Machine.Countable data.size →
      (Machine.Engine.ofModel d.model).decode data =
        Machine.lift ((d.decode data).map Machine.Decoded.ofPlain) := by
  refine ⟨fun data decoded hd => ⟨Model.consumed_of_decodeFrame hd,
    fun other => Model.decodeFrame_of_agree hd, fun size => Model.decodeFrame_of_cut hd⟩, ?_,
    fun data => Machine.Engine.decode_eq d.model⟩
  intro f e he
  obtain ⟨mesh, hcoded, ⟨coding⟩⟩ := c.coding_of_encode he
  have hdecode : d.model.decodeFrame e.bytes = .ok ⟨e.header, e.reconstruction,
      (coding.prologue.bits ++ coding.symbolBits).length⟩ := by
    rw [hmodel]
    exact coding.decodeFrame_eq c.valid hcoded
  obtain ⟨padding, hpadding, hbits⟩ := (coding.yields hcoded).bits_eq
  have hlength := congrArg List.length hbits
  rw [length_bitsOf, List.length_append, List.length_replicate] at hlength
  refine ⟨_, hdecode, by simp only; omega, fun size hsize => ?_⟩
  exact Model.decodeFrame_of_cut hdecode (by simp only; omega)

/-- A coded picture with a byte behind it, and with its last bytes cut off. -/
theorem decode_determined_fourBlocks :
    ∃ e decoded, fourBlocks.encode .slope = .ok e ∧
      (Codec.mk .standard {} rfl).decode e.bytes = .ok decoded ∧
        (decoded.consumed + 7) / 8 = e.bytes.size ∧
          (Codec.mk .standard {} rfl).decode (e.bytes.push 7) = .ok decoded ∧
            ∀ size < e.bytes.size,
              (Codec.mk .standard {} rfl).decode (e.bytes.extract 0 size) =
                .error .truncated := by
  obtain ⟨e, he⟩ := exists_encode_slope
  obtain ⟨hsame, hcoded, -⟩ := decode_determined fourBlocks (Codec.mk .standard {} rfl) rfl
  obtain ⟨decoded, hdecode, hsize, hcut⟩ := hcoded _ e (.inl he)
  obtain ⟨hle, hagree, -⟩ := hsame _ _ hdecode
  refine ⟨e, decoded, he, hdecode, hsize, ?_, hcut⟩
  refine hagree (e.bytes.push 7) ?_ fun i hi => bitAt_push_left _ _ _ (by omega)
  rw [Array.size_push]
  omega

end Codec

end HopCodec
