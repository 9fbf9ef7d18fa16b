/-
The size of a coded frame.  Counting hops block by block and adding up the counts gives the counts
of all symbols in the stream, and what a table needs for the counts is what its codewords take; so
prologue and counts tell the size of a frame to the bit.
-/
import HopCodec.Proofs.Frame.Inspection
import HopCodec.Proofs.Frame.Transmission
import HopCodec.Proofs.Machine.Coded

namespace HopCodec

/-- Adding up a weight over a list of hops is weighing how often each of them occurs. -/
theorem Hop.sum_count_mul (weight : Hop → Nat) (hops : List Hop) :
    (Hop.all.map fun h => hops.count h * weight h).sum = (hops.map weight).sum := by
  induction hops with
  | nil => simp
  | cons g rest ih =>
      have hsplit : ∀ h : Hop, (g :: rest).count h * weight h =
          rest.count h * weight h + if g = h then weight h else 0 := by
        intro h
        rw [List.count_cons, Nat.add_mul]
        by_cases heq : g = h <;> simp [heq]
      have hsingle : (Hop.all.map fun h => if g = h then weight h else 0).sum = weight g := by
        cases g <;> simp [Hop.all]
      simp only [hsplit, List.sum_map_add, ih, hsingle, List.map_cons, List.sum_cons]
      exact Nat.add_comm _ _

namespace Histogram

/-- As many hops are counted as there are. -/
theorem total_ofList (hops : List Hop) : (ofList hops).total = hops.length := by
  have hsum := Hop.sum_count_mul (fun _ => 1) hops
  simp only [Nat.mul_one, List.map_const', List.sum_replicate_nat] at hsum
  rw [total, ← List.sum_eq_foldl, ← hsum]
  exact congrArg List.sum (List.map_congr_left fun h _ => get_ofList hops h)

/-- Counts of two lists together are the counts of both in a row. -/
theorem merge_ofList (before after : List Hop) :
    (ofList before).merge (ofList after) = ofList (before ++ after) := by
  refine HopMap.ext fun hop => ?_
  rw [get_merge, get_ofList, get_ofList, get_ofList, List.count_append]

end Histogram

/-- What a table needs for the counts of a list is what the codewords of the list take. -/
theorem CodeTable.encodedBits_ofList (t : CodeTable) (hops : List Hop) :
    t.encodedBits (.ofList hops) = (hops.flatMap t.symbolBits).length := by
  have hitem : ∀ h, ((t.code? h).map fun c => c.length * (Histogram.ofList hops) h).getD 0 =
      hops.count h * (t.symbolBits h).length := by
    intro h
    rw [Histogram.get_ofList, symbolBits]
    cases t.code? h with
    | none => rfl
    | some c => simp [Codeword.length_bits, Nat.mul_comm]
  rw [List.length_flatMap, ← Hop.sum_count_mul]
  simp only [encodedBits, hitem, List.sum_eq_foldl, List.foldl_map]

/-- The counts of all blocks of a plane are the counts of its hops in stream order. -/
theorem Model.histogram_eq_ofList (blocks : List CodedBlock) :
    histogram blocks = .ofList (hopsOf blocks) := by
  refine HopMap.ext fun hop => ?_
  rw [get_histogram, Histogram.get_ofList]

namespace Coding

variable {m : Model} {s : Settings} {f : Frame} {mesh : Option RelevanceMesh}
  (c : Coding m s f mesh)

def lumaCounts : Histogram :=
  Model.histogram c.blocks.luma

def chromaCounts : Histogram :=
  (Model.histogram c.blocks.chromaA).merge (Model.histogram c.blocks.chromaB)

theorem lumaCounts_eq : c.lumaCounts = .ofList (Model.hopsOf c.blocks.luma) :=
  Model.histogram_eq_ofList _

theorem chromaCounts_eq :
    c.chromaCounts = .ofList (Model.hopsOf c.blocks.chromaA ++ Model.hopsOf c.blocks.chromaB) := by
  rw [chromaCounts, Model.histogram_eq_ofList, Model.histogram_eq_ofList, Histogram.merge_ofList]

/-- One hop is counted for each sample of the planes that share a table. -/
theorem total_counts :
    c.lumaCounts.total = c.grids.luma.sampleCount ∧
      c.chromaCounts.total = 2 * c.grids.chroma.sampleCount := by
  have hluma : (Model.hopsOf c.blocks.luma).length = c.grids.luma.sampleCount :=
    Model.length_hopsOf ..
  have ha : (Model.hopsOf c.blocks.chromaA).length = c.grids.chroma.sampleCount :=
    Model.length_hopsOf ..
  have hb : (Model.hopsOf c.blocks.chromaB).length = c.grids.chroma.sampleCount :=
    Model.length_hopsOf ..
  rw [lumaCounts_eq, chromaCounts_eq, Histogram.total_ofList, Histogram.total_ofList,
    List.length_append]
  omega

def countedBits : Nat :=
  c.lumaTable.encodedBits c.lumaCounts + c.chromaTable.encodedBits c.chromaCounts

theorem length_symbolBits : c.symbolBits.length = c.countedBits := by
  rw [countedBits, lumaCounts_eq, chromaCounts_eq, CodeTable.encodedBits_ofList,
    CodeTable.encodedBits_ofList, List.flatMap_append, symbolBits, List.append_assoc,
    List.length_append]

/-- Every hop that is counted has a codeword. -/
theorem coded_of_counted (h : Hop) :
    (0 < c.lumaCounts h → (c.lumaTable.code? h).isSome) ∧
      (0 < c.chromaCounts h → (c.chromaTable.code? h).isSome) := by
  rw [lumaCounts_eq, chromaCounts_eq, Histogram.get_ofList, Histogram.get_ofList,
    List.count_pos_iff, List.count_pos_iff, List.mem_append]
  refine ⟨fun hmem => ?_, fun hmem => ?_⟩
  · obtain ⟨code, hcode⟩ := c.covers_luma h hmem
    exact Option.isSome_of_eq_some hcode
  · obtain ⟨code, hcode⟩ := hmem.elim (c.covers_chroma.1 h) (c.covers_chroma.2 h)
    exact Option.isSome_of_eq_some hcode

/-- The bytes of a coded frame hold prologue and symbols, and the bits left over are zero. -/
theorem size_bytes {e : CodedFrame} (he : c.Yields e) :
    e.bytes.size = (c.prologue.bits.length + c.countedBits + 7) / 8 ∧
      ∀ i, c.prologue.bits.length + c.countedBits ≤ i → i < 8 * e.bytes.size →
        bitAt e.bytes i = false := by
  obtain ⟨padding, hpadding, hbits⟩ := he.bits_eq
  have hlength := congrArg List.length hbits
  rw [length_bitsOf, List.length_append, List.length_append, List.length_replicate,
    length_symbolBits] at hlength
  refine ⟨by omega, fun i hbehind hi => ?_⟩
  have hlt : i < (bitsOf e.bytes).length := by rwa [length_bitsOf]
  have hget : (bitsOf e.bytes)[i] = bitAt e.bytes i := by simp [bitsOf]
  rw [← hget]
  simp only [hbits]
  rw [List.getElem_append_right (by rw [List.length_append, length_symbolBits]; exact hbehind),
    List.getElem_replicate]

/-- The machine counts and weighs the hops alike. -/
theorem counted_eq (hs : s.validate = .ok ()) :
    Machine.Counts.encodedBits (.ofPlain c.lumaTable) c.lumaCounts =
        .ok (c.lumaTable.encodedBits c.lumaCounts) ∧
      Machine.Counts.encodedBits (.ofPlain c.chromaTable) c.chromaCounts =
        .ok (c.chromaTable.encodedBits c.chromaCounts) ∧
      Machine.Counts.total c.lumaCounts = .ok c.lumaCounts.total ∧
        Machine.Counts.total c.chromaCounts = .ok c.chromaCounts.total := by
  have hword : (0x1000000000000 : Nat) * 126 < Machine.wordSize := by decide
  have hlt := c.sampleCount_lt hs
  obtain ⟨hluma, hchroma⟩ := c.tables_sound hs
  have hlumaBits := Machine.Counts.encodedBits_le hluma fun hop => (c.counts_le hop).1
  have hchromaBits := Machine.Counts.encodedBits_le hchroma fun hop => (c.counts_le hop).2
  obtain ⟨hlumaTotal, hchromaTotal⟩ := c.totals_eq hs
  exact ⟨Machine.Counts.encodedBits_eq (Nat.lt_of_le_of_lt hlumaBits (by omega)),
    Machine.Counts.encodedBits_eq (Nat.lt_of_le_of_lt hchromaBits (by omega)), hlumaTotal,
    hchromaTotal⟩

end Coding

namespace Codec

/-- The size of a coded frame, to the bit.  Behind the prologue that a reader finds there are as
many bits as both tables need for the hops that the encoder counted block by block, which are the
hops that a reader finds, one for each sample; zeros fill up the last byte.  The machine, which adds
up counts and sizes in words, agrees. -/
theorem size_encode (c : Codec) (f : Frame) (e : CodedFrame)
    (he : c.encode f = .ok e ∨ ∃ mesh, c.encodeWithMesh f mesh = .ok e) :
    ∃ mesh, c.model.encodeFrame c.settings f mesh = .ok e ∧
      ∃ (coding : Coding c.model c.settings f mesh) (p : Prologue) (headerBits : Nat)
        (t : Transmission),
        Prologue.inspect c.model.pow e.bytes = .ok (p, headerBits) ∧ p.Describes coding ∧
        e.bytes.size = (headerBits + coding.lumaTable.encodedBits coding.lumaCounts +
          coding.chromaTable.encodedBits coding.chromaCounts + 7) / 8 ∧
        (∀ i, headerBits + coding.lumaTable.encodedBits coding.lumaCounts +
          coding.chromaTable.encodedBits coding.chromaCounts ≤ i → i < 8 * e.bytes.size →
            bitAt e.bytes i = false) ∧
        coding.lumaCounts.total = coding.grids.luma.sampleCount ∧
        coding.chromaCounts.total = 2 * coding.grids.chroma.sampleCount ∧
        Transmission.receive c.model.pow e.bytes = .ok t ∧
        coding.lumaCounts = .ofList (t.hops.luma.flatMap Array.toList) ∧
        coding.chromaCounts =
          .ofList (t.hops.chromaA.flatMap Array.toList ++ t.hops.chromaB.flatMap Array.toList) ∧
        (∀ h, (0 < coding.lumaCounts h → (coding.lumaTable.code? h).isSome) ∧
          (0 < coding.chromaCounts h → (coding.chromaTable.code? h).isSome)) ∧
        Machine.Counts.encodedBits (.ofPlain coding.lumaTable) coding.lumaCounts =
          .ok (coding.lumaTable.encodedBits coding.lumaCounts) ∧
        Machine.Counts.encodedBits (.ofPlain coding.chromaTable) coding.chromaCounts =
          .ok (coding.chromaTable.encodedBits coding.chromaCounts) ∧
        Machine.Counts.total coding.lumaCounts = .ok coding.lumaCounts.total ∧
        Machine.Counts.total coding.chromaCounts = .ok coding.chromaCounts.total := by
  obtain ⟨mesh, hcoded, ⟨coding⟩⟩ := c.coding_of_encode he
  obtain ⟨p, hinspect, hdescribes, -⟩ := coding.exists_inspect c.valid hcoded
  obtain ⟨_, _, hreceive, -⟩ := coding.exists_receive c.valid hcoded
  obtain ⟨hsize, hpadding⟩ := coding.size_bytes (coding.yields hcoded)
  obtain ⟨htotal, htotal'⟩ := coding.total_counts
  have hhops (blocks : List CodedBlock) :
      Model.hopsOf blocks = (blocks.map CodedBlock.hops).flatMap Array.toList := by
    rw [Model.hopsOf, List.flatMap_map]
  have hluma := coding.lumaCounts_eq
  have hchroma := coding.chromaCounts_eq
  rw [hhops] at hluma
  rw [hhops, hhops] at hchroma
  rw [Coding.countedBits, ← Nat.add_assoc] at hsize hpadding
  exact ⟨mesh, hcoded, coding, p, _, _, hinspect, hdescribes, hsize, hpadding, htotal, htotal',
    hreceive, hluma, hchroma, coding.coded_of_counted, coding.counted_eq c.valid⟩

/-- A picture in four blocks: 326 bits of prologue, and the symbols of the samples that are kept. -/
theorem size_encode_fourBlocks :
    ∃ e mesh, fourBlocks.encode .slope = .ok e ∧
      ∃ (coding : Coding fourBlocks.model fourBlocks.settings .slope mesh) (t : Transmission),
        e.bytes.size = (326 + coding.lumaTable.encodedBits coding.lumaCounts +
          coding.chromaTable.encodedBits coding.chromaCounts + 7) / 8 ∧
        (∀ i, 326 + coding.lumaTable.encodedBits coding.lumaCounts +
          coding.chromaTable.encodedBits coding.chromaCounts ≤ i → i < 8 * e.bytes.size →
            bitAt e.bytes i = false) ∧
        Transmission.receive fourBlocks.model.pow e.bytes = .ok t ∧
        coding.lumaCounts = .ofList (t.hops.luma.flatMap Array.toList) ∧
        coding.lumaCounts.total = coding.grids.luma.sampleCount := by
  obtain ⟨e, he⟩ := exists_encode_slope
  obtain ⟨mesh, hcoded, coding, p, headerBits, t, hinspect, -, hsize, hpadding, htotal, -, hreceive,
    hluma, -⟩ := size_encode fourBlocks _ e (.inl he)
  obtain ⟨p', hinspect', -⟩ := coding.exists_inspect fourBlocks.valid hcoded
  have hheader : coding.prologue.header = fourBlocks.settings.headerFor .slope :=
    (Model.headerOf_eq_ok_iff.mp coding.header_eq).2.1
  have hbits : headerBits = 326 := by
    rw [hinspect] at hinspect'
    rw [(Prod.mk.inj (Except.ok.inj hinspect')).2, (coding.sendable fourBlocks.valid).length_bits,
      hheader]
    rfl
  rw [hbits] at hsize hpadding
  exact ⟨e, mesh, he, coding, t, hsize, hpadding, hreceive, hluma, htotal⟩

end Codec

end HopCodec
