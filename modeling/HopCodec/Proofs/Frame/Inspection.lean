/-
Inspecting prologues.  Whatever prologue a reader accepts is spelled by the bits it took, so that
writing it again gives these bits.  Of a coded frame, a reader finds the prologue as the encoder
had it.
-/
import HopCodec.Proofs.Frame.Received
import HopCodec.Proofs.Frame.RoundTrip
import HopCodec.Proofs.Huffman.SymbolStream

namespace HopCodec

open Reading

theorem FrameMode.code_of_ofCode? {code : Nat} {m : FrameMode} (h : ofCode? code = .ok m) :
    m.code = code := by
  unfold ofCode? at h
  split at h <;> cases h <;> rfl

theorem ChromaFormat.code_of_ofCode? {code : Nat} {f : ChromaFormat} (h : ofCode? code = .ok f) :
    f.code = code := by
  unfold ofCode? at h
  split at h <;> cases h <;> rfl

namespace FrameHeader

theorem modeByte_eq {h : FrameHeader} {b : UInt8} (hmode : h.mode.code = b.toNat % 16)
    (hchroma : h.chroma.code = b.toNat / 16) : h.modeByte = b := by
  rw [← UInt8.toNat_inj, toNat_modeByte, hmode, hchroma]
  omega

theorem flagged_bits (b : BitVec 8) :
    (b &&& 0x80#8 = 0#8 → b &&& ~~~0x80#8 = b) ∧
      (b &&& 0x80#8 ≠ 0#8 → 0x80#8 ||| (b &&& ~~~0x80#8) = b) := by
  revert b
  decide

/-- Whatever byte ratio and prediction rule are read from, it is the one they are written as. -/
theorem parameterByte_eq {h : FrameHeader} {b : UInt8} (hratio : h.ratio = b &&& ~~~weightedFlag)
    (hprediction : h.prediction = if b &&& weightedFlag = 0 then .average else .weighted) :
    h.parameterByte = b := by
  obtain ⟨hclear, hset⟩ := flagged_bits b.toBitVec
  unfold parameterByte
  rw [hprediction, hratio]
  by_cases hflag : b &&& weightedFlag = 0
  · rw [if_pos hflag]
    exact UInt8.toBitVec_inj.mp (hclear (congrArg UInt8.toBitVec hflag))
  · rw [if_neg hflag]
    exact UInt8.toBitVec_inj.mp (hset fun hzero => hflag (UInt8.toBitVec_inj.mp hzero))

theorem spells_readFields : Spells readFields bits := by
  intro r h r' hread
  obtain ⟨modeByte, s₁, hmodeByte, hread⟩ := run_bind_eq_ok_iff.mp hread
  obtain ⟨mode, s₂, hmode, hread⟩ := run_bind_eq_ok_iff.mp hread
  obtain ⟨chroma, s₃, hchroma, hread⟩ := run_bind_eq_ok_iff.mp hread
  obtain ⟨width, s₄, hwidth, hread⟩ := run_bind_eq_ok_iff.mp hread
  obtain ⟨height, s₅, hheight, hread⟩ := run_bind_eq_ok_iff.mp hread
  obtain ⟨blocksW, s₆, hblocksW, hread⟩ := run_bind_eq_ok_iff.mp hread
  obtain ⟨blocksH, s₇, hblocksH, hread⟩ := run_bind_eq_ok_iff.mp hread
  obtain ⟨parameters, s₈, hparameters, hread⟩ := run_bind_eq_ok_iff.mp hread
  cases hread
  obtain ⟨hmodeCode, rfl⟩ := run_lift_mapError_eq_ok_iff.mp hmode
  obtain ⟨hchromaCode, rfl⟩ := run_lift_mapError_eq_ok_iff.mp hchroma
  rw [bits, modeByte_eq (FrameMode.code_of_ofCode? hmodeCode)
    (ChromaFormat.code_of_ofCode? hchromaCode), parameterByte_eq rfl rfl]
  exact (((((spells_byte hmodeByte).trans (spells_word hwidth)).trans
    (spells_word hheight)).trans (spells_byte hblocksW)).trans (spells_byte hblocksH)).trans
      (spells_byte hparameters)

theorem spells_read : Spells read bits := by
  intro r h r' hread
  obtain ⟨h', s, hfields, hread⟩ := run_bind_eq_ok_iff.mp hread
  obtain ⟨_, s', hvalid, hread⟩ := run_bind_eq_ok_iff.mp hread
  obtain ⟨-, rfl⟩ := run_lift_eq_ok_iff.mp hvalid
  cases hread
  exact spells_readFields hfields

theorem length_bits (h : FrameHeader) : h.bits.length = 96 := by
  simp [bits, BitWriter.wordBytes]

end FrameHeader

theorem RelevanceLevel.index_of_ofIndex? {i : Nat} {l : RelevanceLevel}
    (h : ofIndex? i = some l) : l.index.val = i := by
  unfold ofIndex? at h
  split at h <;> cases h
  rfl

namespace RelevanceMesh

theorem spells_readCorner : Spells readCorner cornerBits := by
  intro r c r' hread
  obtain ⟨x, s, hx, hread⟩ := run_bind_eq_ok_iff.mp hread
  obtain ⟨y, s', hy, hread⟩ := run_bind_eq_ok_iff.mp hread
  have htakes := (spells_bits levelBits hx).trans (spells_bits levelBits hy)
  cases hlevelX : RelevanceLevel.ofIndex? x with
  | none =>
      rw [hlevelX] at hread
      cases hread
  | some levelX =>
      cases hlevelY : RelevanceLevel.ofIndex? y with
      | none =>
          rw [hlevelX, hlevelY] at hread
          cases hread
      | some levelY =>
          rw [hlevelX, hlevelY] at hread
          cases hread
          rw [cornerBits, RelevanceLevel.index_of_ofIndex? hlevelX,
            RelevanceLevel.index_of_ofIndex? hlevelY]
          exact htakes

theorem spells_read (blocksW blocksH : Nat) : Spells (read blocksW blocksH) bits := by
  intro r m r' hread
  obtain ⟨corners, s, hcorners, hread⟩ := run_bind_eq_ok_iff.mp hread
  cases hread
  have hsize : corners.toArray.size = (blocksW + 1) * (blocksH + 1) :=
    length_of_list hcorners
  have hmesh := ofRaster_corners ⟨blocksW, blocksH, corners.toArray, hsize⟩
  simp only at hmesh
  rw [hmesh]
  exact spells_readCorner.list _ hcorners

theorem length_bits (m : RelevanceMesh) :
    m.bits.length = 6 * ((m.blocksW + 1) * (m.blocksH + 1)) := by
  have hcorner : ∀ c, (cornerBits c).length = 6 := by
    intro c
    simp [cornerBits, levelBits]
  rw [bits, List.length_flatMap]
  simp [hcorner, m.size_corners, Nat.mul_comm]

end RelevanceMesh

namespace CodeTable

theorem toList_ofFn_getD {lengths : List Nat} (h : lengths.length = 9) (default : Nat) :
    (HopMap.ofFn fun hop => lengths.getD hop.index default).toList = lengths := by
  match lengths, h with
  | [_, _, _, _, _, _, _, _, _], _ => rfl

theorem spells_read : Spells read headerBits := by
  intro r t r' hread
  obtain ⟨lengths, s, hlengths, hread⟩ := run_bind_eq_ok_iff.mp hread
  obtain ⟨htable, rfl⟩ := run_lift_mapError_eq_ok_iff.mp hread
  rw [headerBits, lengths_canonical (feasible_of_canonical htable) htable,
    toList_ofFn_getD (length_of_list hlengths)]
  exact (spells_bits lengthBits).list 9 hlengths

end CodeTable

namespace Prologue

theorem spells_readSampling (h : FrameHeader) : Spells (readSampling h) samplingBits := by
  intro r sampling r' hread
  rcases sampling_of_read hread with
    ⟨-, quality, s, mesh, hbyte, -, hmesh, rfl⟩ | ⟨-, rfl, rfl⟩
  · exact (spells_byte hbyte).trans (RelevanceMesh.spells_read _ _ hmesh)
  · exact .nothing r

/-- A prologue that was read is spelled by the bits it was read from. -/
theorem spells_read (pow : Power) : Spells (read pow) fun received => received.1.bits := by
  intro r received r' hread
  obtain ⟨full, s₁, s₂, s₃, s₄, s₅, s₆, hheader, -, hluma, hchromaA, hchromaB, hchromaTable,
    hlumaTable, hsampling, -⟩ := parts_of_read hread
  have hseeds := ((spells_byte.list _ hluma).trans (spells_byte.list _ hchromaA)).trans
    (spells_byte.list _ hchromaB)
  have hall := ((((FrameHeader.spells_read hheader).trans hseeds).trans
    (CodeTable.spells_read hchromaTable)).trans (CodeTable.spells_read hlumaTable)).trans
      (spells_readSampling _ hsampling)
  simpa [bits, seedBits, Channels.toList, List.append_assoc] using hall

theorem length_seedBits (seeds : List UInt8) : (seedBits seeds).length = 8 * seeds.length := by
  simp [seedBits, List.length_flatMap, Nat.mul_comm]

theorem length_samplingBits {h : FrameHeader} {sampling : Option Sampling}
    (hfits : SamplingFits h sampling) :
    (samplingBits sampling).length =
      if h.mode = .advanced then 8 + 6 * ((h.blocksW.toNat + 1) * (h.blocksH.toNat + 1))
      else 0 := by
  rcases sampling with - | s
  · rw [if_neg hfits]
    rfl
  · obtain ⟨hmode, -, hblocksW, hblocksH⟩ := hfits
    rw [if_pos hmode, samplingBits, List.length_append, length_spell, RelevanceMesh.length_bits,
      hblocksW, hblocksH]

theorem length_bits (p : Prologue) :
    p.bits.length = 168 +
      8 * (p.seeds.luma.length + p.seeds.chromaA.length + p.seeds.chromaB.length) +
        (samplingBits p.sampling).length := by
  simp only [bits, List.length_append, FrameHeader.length_bits, CodeTable.length_headerBits,
    Channels.toList, List.flatMap_cons, List.flatMap_nil, List.length_nil, length_seedBits]
  omega

/-- A prologue takes a fixed number of bits, three bytes for each block and, in advanced mode, a
byte and six bits for each corner of the grid. -/
theorem Sendable.length_bits {p : Prologue} {full : FrameGrids} (h : p.Sendable full) :
    p.bits.length = 168 + 24 * (p.header.blocksW.toNat * p.header.blocksH.toNat) +
      if p.header.mode = .advanced then
        8 + 6 * ((p.header.blocksW.toNat + 1) * (p.header.blocksH.toNat + 1))
      else 0 := by
  have fit := FrameHeader.fit_of_grids h.grids
  rw [p.length_bits, h.luma_seeds, h.chromaA_seeds, h.chromaB_seeds, fit.size_luma,
    fit.size_chroma, length_samplingBits h.sampling]
  omega

theorem inspect_eq_ok_iff {pow : Power} {data : Bytes} {p : Prologue} {n : Nat} :
    inspect pow data = .ok (p, n) ↔
      ∃ grids r, (read pow).run (BitReader.ofBytes data) = .ok (p, grids) r ∧
        r.consumed = n := by
  unfold inspect
  rcases (read pow).run (BitReader.ofBytes data) with ⟨⟨p', grids⟩, r⟩ | ⟨fault, r⟩
  · simp only [Except.ok.injEq, Prod.mk.injEq, EStateM.Result.ok.injEq]
    constructor
    · rintro ⟨rfl, rfl⟩
      exact ⟨grids, r, ⟨⟨rfl, rfl⟩, rfl⟩, rfl⟩
    · rintro ⟨_, _, ⟨⟨rfl, rfl⟩, rfl⟩, rfl⟩
      exact ⟨rfl, rfl⟩
  · simp

/-- What is read from a spelling is found where a byte string begins with it. -/
theorem inspect_of_reads {pow : Power} {p : Prologue} {g : FrameGrids} {bits : List Bool}
    (hreads : Reads (read pow) bits (p, g)) {data : Bytes} (hfront : bits <+: bitsOf data) :
    inspect pow data = .ok (p, bits.length) := by
  obtain ⟨r, hrun, hconsumed⟩ := hreads.exists_run hfront
  exact inspect_eq_ok_iff.mpr ⟨g, r, hrun, hconsumed⟩

theorem SamplingFits.isSome_iff {h : FrameHeader} {sampling : Option Sampling}
    (hfits : SamplingFits h sampling) : sampling.isSome ↔ h.mode = .advanced := by
  rcases sampling with - | s
  · exact iff_of_false Bool.false_ne_true hfits
  · exact iff_of_true rfl hfits.1

/-- Writing what was found gives the bits it was found in. -/
theorem write_of_inspect {pow : Power} {data : Bytes} {p : Prologue} {n : Nat}
    (hinspect : inspect pow data = .ok (p, n)) :
    n ≤ 8 * data.size ∧ (p.write .empty).bits = (bitsOf data).take n ∧
      (p.sampling.isSome ↔ p.header.mode = .advanced) := by
  obtain ⟨grids, r, hrun, rfl⟩ := inspect_eq_ok_iff.mp hinspect
  have htakes := spells_read pow hrun
  obtain ⟨-, hbits⟩ := p.writes_write .empty BitWriter.tidy_empty
  refine ⟨htakes.consumed_le, ?_, (received_of_read hrun).sampling.isSome_iff⟩
  rw [hbits, BitWriter.bits_empty, List.nil_append]
  exact htakes.eq_take

end Prologue

def firstSample (plane : Plane) (b : Block) : UInt8 :=
  (Predictor.blockSamples b (plane.crop b.x.start b.y.start b.width b.height)).getD 0 0

/-- Of a block that keeps all its pixels, the first sample is the top left one. -/
theorem firstSample_of_full (plane : Plane) {b : Block} (hpos : 0 < b.width * b.height)
    (hfull : b.isDownsampled = false) :
    firstSample plane b = plane.get b.x.start b.y.start := by
  simp only [firstSample, Predictor.blockSamples, hfull, Bool.false_eq_true, if_false]
  simpa using plane.getD_crop (x := b.x.start) (y := b.y.start) hpos

variable {m : Model} {s : Settings} {f : Frame} {mesh : Option RelevanceMesh}

/-- A prologue that says what an encoder worked out: its header, the first coded sample of every
block, and tables with its code lengths and codewords. -/
structure Prologue.Describes (p : Prologue) (c : Coding m s f mesh) : Prop where
  header : p.header = c.header
  luma_seeds : p.seeds.luma = c.grids.luma.blocks.toList.map (firstSample f.planes.luma)
  chromaA_seeds :
    p.seeds.chromaA = c.grids.chroma.blocks.toList.map (firstSample f.planes.chromaA)
  chromaB_seeds :
    p.seeds.chromaB = c.grids.chroma.blocks.toList.map (firstSample f.planes.chromaB)
  chroma_lengths : p.chromaTable.lengths = c.chromaTable.lengths
  chroma_codes : ∀ h, p.chromaTable.code? h = c.chromaTable.code? h
  luma_lengths : p.lumaTable.lengths = c.lumaTable.lengths
  luma_codes : ∀ h, p.lumaTable.code? h = c.lumaTable.code? h

/-- Quality and mesh are those of the settings and the coded frame, and there are any in advanced
mode alone. -/
theorem Coding.sampling_eq (c : Coding m s f mesh) {e : CodedFrame}
    (he : m.encodeFrame s f mesh = .ok e) :
    c.sampling = e.mesh.map (fun mesh => ⟨s.quality, mesh⟩) ∧
      (e.mesh.isSome ↔ s.mode = .advanced) := by
  rw [(c.yields he).mesh_eq, Coding.sampling, Model.samplingOf]
  split <;> simp [*]

/-- A reader finds the prologue of a coded frame as the encoder had it. -/
theorem Coding.exists_inspect (c : Coding m s f mesh) (hs : s.validate = .ok ()) {e : CodedFrame}
    (he : m.encodeFrame s f mesh = .ok e) :
    ∃ p, Prologue.inspect m.pow e.bytes = .ok (p, c.prologue.bits.length) ∧ p.Describes c ∧
      p.sampling = c.sampling := by
  obtain ⟨chromaTable, lumaTable, hreads, ⟨-, hchroma⟩, ⟨-, hluma⟩⟩ :=
    Prologue.reads_read (c.sendable hs) m.pow c.prologue_grids
  have hfront := (List.prefix_append c.prologue.bits c.symbolBits).trans (c.isPrefix_bitsOf he)
  have hseeds (plane : Plane) (g : BlockGrid) :
      (g.blocks.toList.map (c.predictor.codeBlock plane)).map CodedBlock.seed =
        g.blocks.toList.map (firstSample plane) := by
    rw [List.map_map]
    rfl
  refine ⟨_, Prologue.inspect_of_reads hreads hfront, ?_, rfl⟩
  exact ⟨rfl, hseeds _ _, hseeds _ _, hseeds _ _, CodeTable.lengths_congr hchroma, hchroma,
    CodeTable.lengths_congr hluma, hluma⟩

namespace Codec

/-- A mesh that was given is the mesh used. -/
theorem mesh_of_encodeWithMesh (c : Codec) {given : RelevanceMesh} {e : CodedFrame}
    (he : c.encodeWithMesh f given = .ok e) : e.mesh = some given := by
  obtain ⟨hmode, he⟩ := c.encodeWithMesh_eq_ok_iff.mp he
  obtain ⟨coding⟩ := Model.coding_of_encodeFrame c.valid he
  rw [(coding.yields he).mesh_eq, Coding.sampling, Model.samplingOf, if_pos hmode]
  rfl

/-- The prologue is a faithful format in both directions.  A reader of a coded frame finds the
header, the first coded sample of every block in raster order, which is its top left pixel unless
it is downsampled, both tables and, in advanced mode alone, quality and mesh, in as many bits as
the header tells.  Writing whatever prologue a reader accepts gives the bits it was read from. -/
theorem prologue_faithful (c : Codec) :
    (∀ f e, (c.encode f = .ok e ∨ ∃ mesh, c.encodeWithMesh f mesh = .ok e) →
      ∃ mesh, c.model.encodeFrame c.settings f mesh = .ok e ∧
        ∃ (coding : Coding c.model c.settings f mesh) (p : Prologue) (bits : Nat),
          Prologue.inspect c.model.pow e.bytes = .ok (p, bits) ∧
            p.header = e.header ∧ p.Describes coding ∧ coding.grids.Fit e.header ∧
              (∀ plane b, b ∈ coding.grids.luma.blocks ∨ b ∈ coding.grids.chroma.blocks →
                b.isDownsampled = false →
                  firstSample plane b = plane.get b.x.start b.y.start) ∧
              p.sampling = e.mesh.map (fun mesh => ⟨c.settings.quality, mesh⟩) ∧
              (e.mesh.isSome ↔ c.settings.mode = .advanced) ∧
              (∀ given, c.encodeWithMesh f given = .ok e → e.mesh = some given) ∧
              bits = 168 + 24 * (e.header.blocksW.toNat * e.header.blocksH.toNat) +
                if c.settings.mode = .advanced then
                  8 + 6 * ((e.header.blocksW.toNat + 1) * (e.header.blocksH.toNat + 1))
                else 0) ∧
    ∀ pow data p bits, Prologue.inspect pow data = .ok (p, bits) →
      bits ≤ 8 * data.size ∧ (p.write .empty).bits = (bitsOf data).take bits ∧
        (p.sampling.isSome ↔ p.header.mode = .advanced) := by
  constructor
  · intro f e he
    obtain ⟨mesh, hcoded, ⟨coding⟩⟩ := c.coding_of_encode he
    have hyields := coding.yields hcoded
    have fit := coding.fit c.valid
    obtain ⟨p, hinspect, hdescribes, hsampling⟩ := coding.exists_inspect c.valid hcoded
    have hheader : p.header = e.header := hdescribes.header.trans hyields.header_eq.symm
    obtain ⟨hmesh, hadvanced⟩ := coding.sampling_eq hcoded
    refine ⟨mesh, hcoded, coding, p, _, hinspect, hheader, hdescribes, hyields.header_eq ▸ fit,
      ?_, hsampling.trans hmesh, hadvanced, fun given => c.mesh_of_encodeWithMesh, ?_⟩
    · intro plane b hb hfull
      have hpos : 0 < b.width * b.height := by
        rcases hb with hb | hb
        · exact fit.luma.area_pos hb
        · exact fit.chroma.area_pos hb
      exact firstSample_of_full plane hpos hfull
    · rw [hyields.header_eq, ← coding.header_mode]
      exact (coding.sendable c.valid).length_bits
  · intro pow data p bits hinspect
    exact Prologue.write_of_inspect hinspect

/-- The prologue of a picture in four blocks, read from the frame and written again: the seeds
take 96 bits, and quality and mesh 62. -/
theorem prologue_faithful_fourBlocks :
    ∃ e, fourBlocks.encode .slope = .ok e ∧
      ∃ p, Prologue.inspect Model.standard.pow e.bytes = .ok (p, 168 + 96 + 62) ∧
        p.header = e.header ∧ p.sampling.isSome ∧
          (p.write .empty).bits = (bitsOf e.bytes).take (168 + 96 + 62) := by
  obtain ⟨e, he⟩ := exists_encode_slope
  obtain ⟨hread, hwrite⟩ := prologue_faithful fourBlocks
  obtain ⟨mesh, -, coding, p, bits, hinspect, hheader, hdescribes, -, -, -, -, -, hbits⟩ :=
    hread _ e (.inl he)
  have hfields : e.header = fourBlocks.settings.headerFor .slope := by
    rw [← hheader, hdescribes.header, (Model.headerOf_eq_ok_iff.mp coding.header_eq).2.1]
    rfl
  have hlength : bits = 168 + 96 + 62 := by
    rw [hbits, hfields]
    rfl
  rw [hlength] at hinspect
  obtain ⟨-, hwritten, hsampled⟩ := hwrite _ _ _ _ hinspect
  refine ⟨e, he, p, hinspect, hheader, hsampled.mpr ?_, hwritten⟩
  rw [hheader, hfields]
  rfl

end Codec

end HopCodec
