/-
The round trip of whole frames.  A decoder that reads the bits of a coded frame finds its header,
its seeds and its hops, derives the same grids from them and repeats every scan of the encoder.
-/
import HopCodec.Proofs.Bits.Taking
import HopCodec.Proofs.Frame.Outcome

namespace HopCodec

open Reading

namespace CodeTable

/-- Tables with the same codewords spell hops alike. -/
theorem symbolBits_congr {t t' : CodeTable} (h : ∀ hop, t'.code? hop = t.code? hop) :
    t'.symbolBits = t.symbolBits := by
  funext hop
  rw [symbolBits, symbolBits, h]

theorem Covers.congr {t t' : CodeTable} {hops : List Hop} (hcovers : t.Covers hops)
    (h : ∀ hop, t'.code? hop = t.code? hop) : t'.Covers hops := by
  intro hop hmem
  rw [h]
  exact hcovers hop hmem

end CodeTable

namespace Model

/-- The hops of all blocks of a plane are read back block by block. -/
theorem reads_readBlocks {t : CodeTable} (ht : t.Sound) (p : Predictor) (plane : Plane)
    {blocks : List Block} (hcovers : t.Covers (hopsOf (blocks.map (p.codeBlock plane))))
    (hroom : ∀ b ∈ blocks, b.sampleCount < allocationLimit) :
    Reads (readBlocks t blocks)
      ((hopsOf (blocks.map (p.codeBlock plane))).flatMap t.symbolBits)
      ((blocks.map (p.codeBlock plane)).map CodedBlock.hops) := by
  induction blocks with
  | nil => exact .pure []
  | cons b rest ih =>
      have hsplit : hopsOf ((b :: rest).map (p.codeBlock plane)) =
          (p.codeBlock plane b).hops.toList ++ hopsOf (rest.map (p.codeBlock plane)) :=
        List.flatMap_cons
      rw [hsplit] at hcovers ⊢
      have hlength : (p.codeBlock plane b).hops.toList.length = b.sampleCount := by
        rw [Array.length_toList, Predictor.size_hops_codeBlock]
      have hhead := CodeTable.reads_readSymbols ht
        (fun g hg => hcovers g (List.mem_append_left _ hg))
        (hlength ▸ hroom b List.mem_cons_self)
      have htail := ih (fun g hg => hcovers g (List.mem_append_right _ hg))
        fun b' hb' => hroom b' (List.mem_cons_of_mem b hb')
      rw [hlength, Array.toArray_toList] at hhead
      rw [List.flatMap_append]
      exact hhead.bind (htail.map _)

/-- Blocks are rebuilt from their seeds and hops as the encoder left them. -/
theorem rebuildBlocks_codeBlock (p : Predictor) (plane : Plane) (g : BlockGrid) :
    rebuildBlocks p g ((g.blocks.toList.map (p.codeBlock plane)).map CodedBlock.seed)
        ((g.blocks.toList.map (p.codeBlock plane)).map CodedBlock.hops) =
      (g.blocks.toList.map (p.codeBlock plane)).map CodedBlock.pixels := by
  unfold rebuildBlocks
  generalize g.blocks.toList = blocks
  induction blocks with
  | nil => rfl
  | cons b rest ih =>
      simp only [List.map_cons, List.zip_cons_cons, Predictor.rebuildBlock_codeBlock]
      rw [ih]

/-- Read the hops of all planes and rebuild the frame. -/
def readSampled (p : Predictor) (prologue : Prologue) (grids : FrameGrids) :
    Reading (FrameHeader × Frame) := do
  let luma ← readBlocks prologue.lumaTable grids.luma.blocks.toList
  let chromaA ← readBlocks prologue.chromaTable grids.chroma.blocks.toList
  let chromaB ← readBlocks prologue.chromaTable grids.chroma.blocks.toList
  let frame ← Reading.lift (grids.assemble prologue.header
    ⟨rebuildBlocks p grids.luma prologue.seeds.luma luma,
      rebuildBlocks p grids.chroma prologue.seeds.chromaA chromaA,
      rebuildBlocks p grids.chroma prologue.seeds.chromaB chromaB⟩)
  return (prologue.header, frame)

def readHops (lumaTable chromaTable : CodeTable) (g : FrameGrids) :
    Reading (Channels (List (Array Hop))) := do
  let luma ← readBlocks lumaTable g.luma.blocks.toList
  let chromaA ← readBlocks chromaTable g.chroma.blocks.toList
  let chromaB ← readBlocks chromaTable g.chroma.blocks.toList
  return ⟨luma, chromaA, chromaB⟩

/-- A decoder has all hops before it rebuilds the first block. -/
theorem readSampled_eq_readHops (p : Predictor) (prologue : Prologue) (g : FrameGrids) :
    readSampled p prologue g = (do
      let hops ← readHops prologue.lumaTable prologue.chromaTable g
      let frame ← lift (g.assemble prologue.header
        ⟨rebuildBlocks p g.luma prologue.seeds.luma hops.luma,
          rebuildBlocks p g.chroma prologue.seeds.chromaA hops.chromaA,
          rebuildBlocks p g.chroma prologue.seeds.chromaB hops.chromaB⟩)
      return (prologue.header, frame)) := by
  simp only [readSampled, readHops, bind_assoc, pure_bind]

/-- Reading a frame is reading its prologue, checking that its symbols may all be there, and
reading them. -/
theorem readFrame_eq_readSampled (m : Model) :
    m.readFrame = (do
      let (prologue, grids) ← Prologue.read m.pow
      let p ← Reading.lift
        (Predictor.new? m.tables prologue.header.ratio.toNat prologue.header.prediction)
      let r ← get
      if r.remaining < grids.sampleCount then Reading.refuse .truncated
      readSampled p prologue grids) :=
  rfl

theorem decodeFrame_eq_ok_iff {m : Model} {data : Bytes} {d : DecodedFrame} :
    m.decodeFrame data = .ok d ↔
      ∃ r, m.readFrame.run (BitReader.ofBytes data) = .ok (d.header, d.frame) r ∧
        r.consumed = d.consumed := by
  unfold decodeFrame
  rcases m.readFrame.run (BitReader.ofBytes data) with ⟨⟨header, frame⟩, r⟩ | ⟨fault, r⟩
  · simp only [Except.ok.injEq, EStateM.Result.ok.injEq, Prod.mk.injEq]
    constructor
    · rintro rfl
      exact ⟨r, ⟨⟨rfl, rfl⟩, rfl⟩, rfl⟩
    · rintro ⟨_, ⟨⟨hheader, hframe⟩, rfl⟩, hconsumed⟩
      rw [hheader, hframe, hconsumed]
  · simp

theorem decodeFrame_of_reads {m : Model} {h : FrameHeader} {frame : Frame} {bits : List Bool}
    (hreads : Reads m.readFrame bits (h, frame)) {data : Bytes} (hfront : bits <+: bitsOf data) :
    m.decodeFrame data = .ok ⟨h, frame, bits.length⟩ := by
  obtain ⟨r, hrun, hconsumed⟩ := hreads.exists_run hfront
  exact decodeFrame_eq_ok_iff.mpr ⟨r, hrun, hconsumed⟩

theorem length_hopsOf (p : Predictor) (plane : Plane) (g : BlockGrid) :
    (hopsOf (g.blocks.toList.map (p.codeBlock plane))).length = g.sampleCount := by
  rw [hopsOf, g.sampleCount_eq_sum, List.length_flatMap, List.map_map]
  congr 1
  apply List.map_congr_left
  intro b _
  simp [Predictor.size_hops_codeBlock]

end Model

namespace BlockGrid

/-- No block has more samples than its plane has pixels. -/
theorem Tiles.sampleCount_le {g : BlockGrid} {width height : Nat} (h : g.Tiles width height)
    {b : Block} (hb : b ∈ g.blocks.toList) : b.sampleCount ≤ width * height := by
  obtain ⟨k, hk, rfl⟩ := Array.mem_iff_getElem.mp (Array.mem_toList_iff.mp hb)
  have hplaced := h.placed k hk
  have hinside := h.inside hk
  have hx : g.blocks[k].x.samples ≤ width := by
    have hle : g.blocks[k].x.samples ≤ g.blocks[k].width := hplaced.x.samples_le
    have hstop := hinside.x_stop
    have hmax := hinside.x_le
    omega
  have hy : g.blocks[k].y.samples ≤ height := by
    have hle : g.blocks[k].y.samples ≤ g.blocks[k].height := hplaced.y.samples_le
    have hstop := hinside.y_stop
    have hmax := hinside.y_le
    omega
  exact Nat.mul_le_mul hx hy

end BlockGrid

namespace Coding

variable {m : Model} {s : Settings} {f : Frame} {mesh : Option RelevanceMesh}
  (c : Coding m s f mesh)

/-- Some hop is counted on either table. -/
theorem exists_counted (hs : s.validate = .ok ()) :
    (∃ hop, 0 < (Model.histogram c.blocks.luma).get hop) ∧
      ∃ hop, 0 < ((Model.histogram c.blocks.chromaA).merge
        (Model.histogram c.blocks.chromaB)).get hop := by
  have fit := c.fit hs
  obtain ⟨hlumaPos, hchromaPos⟩ := Model.blocks_pos c.inRange fit
  obtain ⟨lumaHop, hlumaHop⟩ :=
    Model.exists_hop c.predictor f.planes.luma fit.luma hlumaPos
  obtain ⟨chromaHop, hchromaHop⟩ :=
    Model.exists_hop c.predictor f.planes.chromaA fit.chroma hchromaPos
  refine ⟨⟨lumaHop, ?_⟩, chromaHop, ?_⟩
  · rw [Model.get_histogram]
    exact List.count_pos_iff.mpr hlumaHop
  · rw [Histogram.get_merge, Model.get_histogram]
    exact Nat.add_pos_left (List.count_pos_iff.mpr hchromaHop) _

/-- The prologue of a coded frame is one that a decoder accepts. -/
theorem sendable (hs : s.validate = .ok ()) : c.prologue.Sendable c.full := by
  have fit := c.fit hs
  have hcounts := c.full_fit
  refine ⟨c.valid, c.full_eq, ?_, ?_, ?_, Histogram.feasible_of_codeTable c.chromaTable_eq,
    Histogram.feasible_of_codeTable c.lumaTable_eq, c.samplingFits hs⟩
  · change (List.map _ (List.map _ c.grids.luma.blocks.toList)).length = _
    rw [List.length_map, List.length_map, Array.length_toList, fit.size_luma, hcounts.size_luma]
  · change (List.map _ (List.map _ c.grids.chroma.blocks.toList)).length = _
    rw [List.length_map, List.length_map, Array.length_toList, fit.size_chroma,
      hcounts.size_chroma]
  · change (List.map _ (List.map _ c.grids.chroma.blocks.toList)).length = _
    rw [List.length_map, List.length_map, Array.length_toList, fit.size_chroma,
      hcounts.size_chroma]

/-- The sampled grids are the ones a decoder derives from the prologue. -/
theorem prologue_grids : c.prologue.grids m.pow = .ok c.grids := by
  have hgrids := c.grids_eq
  rw [← c.header_chroma] at hgrids
  have hfull : c.prologue.grids m.pow = m.sampledGrids c.header.chroma c.full c.sampling := by
    unfold Prologue.grids
    change (c.header.grids >>= fun full => _) = _
    rw [c.full_eq]
    cases hsampling : c.sampling with
    | none => simp [bind, Except.bind, prologue, Model.sampledGrids, hsampling, pure, Except.pure]
    | some sampling => simp [bind, Except.bind, prologue, Model.sampledGrids, hsampling]
  exact hfull.trans hgrids

/-- Each symbol of a coded frame takes at least a bit. -/
theorem sampleCount_le_symbolBits {lumaTable chromaTable : CodeTable} (hluma : lumaTable.Sound)
    (hchroma : chromaTable.Sound)
    (hlumaCovers : lumaTable.Covers (Model.hopsOf c.blocks.luma))
    (hchromaCovers : chromaTable.Covers (Model.hopsOf c.blocks.chromaA) ∧
      chromaTable.Covers (Model.hopsOf c.blocks.chromaB)) :
    c.grids.sampleCount ≤
      ((Model.hopsOf c.blocks.luma).flatMap lumaTable.symbolBits ++
        ((Model.hopsOf c.blocks.chromaA).flatMap chromaTable.symbolBits ++
          (Model.hopsOf c.blocks.chromaB).flatMap chromaTable.symbolBits)).length := by
  have hl := CodeTable.length_le_symbolBits hluma hlumaCovers
  have ha := CodeTable.length_le_symbolBits hchroma hchromaCovers.1
  have hb := CodeTable.length_le_symbolBits hchroma hchromaCovers.2
  have hlengthL : (Model.hopsOf c.blocks.luma).length = c.grids.luma.sampleCount :=
    Model.length_hopsOf ..
  have hlengthA : (Model.hopsOf c.blocks.chromaA).length = c.grids.chroma.sampleCount :=
    Model.length_hopsOf ..
  have hlengthB : (Model.hopsOf c.blocks.chromaB).length = c.grids.chroma.sampleCount :=
    Model.length_hopsOf ..
  simp only [List.length_append, FrameGrids.sampleCount]
  omega

/-- The hop symbols are read with any tables of the same codewords. -/
theorem reads_readHops (hs : s.validate = .ok ()) {lumaTable chromaTable : CodeTable}
    (hluma : lumaTable.Sound) (hlumaCodes : ∀ h, lumaTable.code? h = c.lumaTable.code? h)
    (hchroma : chromaTable.Sound)
    (hchromaCodes : ∀ h, chromaTable.code? h = c.chromaTable.code? h) :
    Reads (Model.readHops lumaTable chromaTable c.grids) c.symbolBits
      (c.blocks.map (·.map CodedBlock.hops)) := by
  have fit := c.fit hs
  obtain ⟨hroom, hchromaRoom⟩ := c.inRange.room
  have hlumaCovers := c.covers_luma.congr hlumaCodes
  have hchromaCovers := c.covers_chroma.1.congr hchromaCodes
  have hchromaCovers' := c.covers_chroma.2.congr hchromaCodes
  have hlumaBits : lumaTable.symbolBits = c.lumaTable.symbolBits :=
    CodeTable.symbolBits_congr hlumaCodes
  have hchromaBits : chromaTable.symbolBits = c.chromaTable.symbolBits :=
    CodeTable.symbolBits_congr hchromaCodes
  have hreadL : Reads (Model.readBlocks lumaTable c.grids.luma.blocks.toList)
      ((Model.hopsOf c.blocks.luma).flatMap lumaTable.symbolBits)
      (c.blocks.luma.map CodedBlock.hops) :=
    Model.reads_readBlocks hluma c.predictor f.planes.luma hlumaCovers
      fun b hb => Nat.lt_of_le_of_lt (fit.luma.sampleCount_le hb) hroom
  have hreadA : Reads (Model.readBlocks chromaTable c.grids.chroma.blocks.toList)
      ((Model.hopsOf c.blocks.chromaA).flatMap chromaTable.symbolBits)
      (c.blocks.chromaA.map CodedBlock.hops) :=
    Model.reads_readBlocks hchroma c.predictor f.planes.chromaA hchromaCovers
      fun b hb => Nat.lt_of_le_of_lt (fit.chroma.sampleCount_le hb) hchromaRoom
  have hreadB : Reads (Model.readBlocks chromaTable c.grids.chroma.blocks.toList)
      ((Model.hopsOf c.blocks.chromaB).flatMap chromaTable.symbolBits)
      (c.blocks.chromaB.map CodedBlock.hops) :=
    Model.reads_readBlocks hchroma c.predictor f.planes.chromaB hchromaCovers'
      fun b hb => Nat.lt_of_le_of_lt (fit.chroma.sampleCount_le hb) hchromaRoom
  have hhops : Reads (Model.readHops lumaTable chromaTable c.grids) _ _ :=
    hreadL.bind (hreadA.bind (hreadB.bind (Reads.pure _)))
  rw [List.append_nil, hlumaBits, hchromaBits, ← List.append_assoc] at hhops
  exact hhops

/-- A decoder over the same model reads the reconstruction out of the bits of a coded frame. -/
theorem reads_readFrame (hs : s.validate = .ok ()) {frame : Frame}
    (hframe : c.grids.assemble c.header (c.blocks.map (·.map CodedBlock.pixels)) = .ok frame) :
    Reads m.readFrame (c.prologue.bits ++ c.symbolBits) (c.header, frame) := by
  obtain ⟨chromaTable, lumaTable, hprologue, ⟨hchroma, hchromaCodes⟩, ⟨hluma, hlumaCodes⟩⟩ :=
    Prologue.reads_read (c.sendable hs) m.pow c.prologue_grids
  have hhops := c.reads_readHops hs hluma hlumaCodes hchroma hchromaCodes
  have hbits : c.grids.sampleCount ≤ c.symbolBits.length := by
    have hlumaBits : lumaTable.symbolBits = c.lumaTable.symbolBits :=
      CodeTable.symbolBits_congr hlumaCodes
    have hchromaBits : chromaTable.symbolBits = c.chromaTable.symbolBits :=
      CodeTable.symbolBits_congr hchromaCodes
    rw [symbolBits, ← hlumaBits, ← hchromaBits, List.append_assoc]
    exact c.sampleCount_le_symbolBits hluma hchroma (c.covers_luma.congr hlumaCodes)
      ⟨c.covers_chroma.1.congr hchromaCodes, c.covers_chroma.2.congr hchromaCodes⟩
  have hpredictor : Reads (lift (Predictor.new? m.tables c.header.ratio.toNat
      c.header.prediction)) [] c.predictor := by
    rw [c.header_prediction.1, c.header_prediction.2, c.predictor_eq]
    exact reads_lift_ok _
  have hassemble : Reads (lift (c.grids.assemble c.header
      ⟨Model.rebuildBlocks c.predictor c.grids.luma (c.blocks.luma.map CodedBlock.seed)
        (c.blocks.luma.map CodedBlock.hops),
      Model.rebuildBlocks c.predictor c.grids.chroma (c.blocks.chromaA.map CodedBlock.seed)
        (c.blocks.chromaA.map CodedBlock.hops),
      Model.rebuildBlocks c.predictor c.grids.chroma (c.blocks.chromaB.map CodedBlock.seed)
        (c.blocks.chromaB.map CodedBlock.hops)⟩)) [] frame := by
    simp only [blocks, Model.codeBlocks, Model.rebuildBlocks_codeBlock]
    change Reads (lift (c.grids.assemble c.header
      (c.blocks.map (·.map CodedBlock.pixels)))) [] frame
    rw [hframe]
    exact reads_lift_ok frame
  have hsymbols : Reads (Model.readSampled c.predictor
      ⟨c.header, c.prologue.seeds, chromaTable, lumaTable, c.sampling⟩ c.grids) c.symbolBits
      (c.header, frame) := by
    rw [Model.readSampled_eq_readHops, ← List.append_nil c.symbolBits]
    exact hhops.bind (hassemble.map fun frame => (c.header, frame))
  have hguarded := hsymbols.guard c.grids.sampleCount .truncated hbits
  rw [Model.readFrame_eq_readSampled]
  exact hprologue.bind (hpredictor.bind hguarded)

/-- A coded frame begins with the bits of its prologue and its hop symbols. -/
theorem isPrefix_bitsOf {e : CodedFrame} (he : m.encodeFrame s f mesh = .ok e) :
    c.prologue.bits ++ c.symbolBits <+: bitsOf e.bytes := by
  obtain ⟨padding, -, hbits⟩ := (c.yields he).bits_eq
  rw [hbits]
  exact List.prefix_append _ _

/-- A decoder over the same model finds the reconstruction, and takes nothing but prologue and hop
symbols. -/
theorem decodeFrame_eq (hs : s.validate = .ok ()) {e : CodedFrame}
    (he : m.encodeFrame s f mesh = .ok e) :
    m.decodeFrame e.bytes =
      .ok ⟨e.header, e.reconstruction, (c.prologue.bits ++ c.symbolBits).length⟩ := by
  have hyields := c.yields he
  rw [hyields.header_eq]
  exact Model.decodeFrame_of_reads (c.reads_readFrame hs hyields.frame_eq) (c.isPrefix_bitsOf he)

end Coding

def Plane.ofRow (pixels : Bytes) : Plane :=
  ⟨pixels.size, 1, pixels.size, pixels, Nat.le_refl _, .inr (by simp)⟩

/-- A frame whose three planes are one row. -/
def Frame.ofRow (pixels : Bytes) : Frame :=
  ⟨.yuv444, ⟨.ofRow pixels, .ofRow pixels, .ofRow pixels⟩, by
    simp [Plane.ofRow, ChromaFormat.chromaSize, ChromaFormat.factors, ceilDiv], by
    simp [Plane.ofRow, ChromaFormat.chromaSize, ChromaFormat.factors, ceilDiv]⟩

namespace Codec

/-- Decoding what an encoder wrote gives the frame the encoder says it gives, whatever the
settings of the decoder. -/
theorem decode_of_encodeFrame {m : Model} {s : Settings} (hs : s.validate = .ok ()) {f : Frame}
    {mesh : Option RelevanceMesh} {e : CodedFrame} (he : m.encodeFrame s f mesh = .ok e) :
    ∃ n, m.decodeFrame e.bytes = .ok ⟨e.header, e.reconstruction, n⟩ := by
  obtain ⟨c⟩ := Model.coding_of_encodeFrame hs he
  exact ⟨_, c.decodeFrame_eq hs he⟩

theorem encodeWithMesh_eq_ok_iff (c : Codec) {f : Frame} {mesh : RelevanceMesh} {e : CodedFrame} :
    c.encodeWithMesh f mesh = .ok e ↔
      c.settings.mode = .advanced ∧ c.model.encodeFrame c.settings f (some mesh) = .ok e := by
  unfold encodeWithMesh
  by_cases hmode : c.settings.mode = .advanced
  · simp [hmode]
  · simp [hmode]

/-- A frame is coded with a given mesh or without one. -/
theorem coding_of_encode (c : Codec) {f : Frame} {e : CodedFrame}
    (he : c.encode f = .ok e ∨ ∃ mesh, c.encodeWithMesh f mesh = .ok e) :
    ∃ mesh, c.model.encodeFrame c.settings f mesh = .ok e ∧
      Nonempty (Coding c.model c.settings f mesh) := by
  have hcoded : ∃ mesh, c.model.encodeFrame c.settings f mesh = .ok e := by
    rcases he with he | ⟨mesh, he⟩
    · exact ⟨none, he⟩
    · exact ⟨some mesh, (c.encodeWithMesh_eq_ok_iff.mp he).2⟩
  obtain ⟨mesh, hcoded⟩ := hcoded
  exact ⟨mesh, hcoded, Model.coding_of_encodeFrame c.valid hcoded⟩

/-- The round trip: decoding a coded frame with any other codec over the same model gives exactly
the reconstruction that the encoder returned, in every plane. -/
theorem decode_encode (c d : Codec) (hmodel : d.model = c.model) (f : Frame) (e : CodedFrame)
    (he : c.encode f = .ok e ∨ ∃ mesh, c.encodeWithMesh f mesh = .ok e) :
    ∃ decoded, d.decode e.bytes = .ok decoded ∧ decoded.header = e.header ∧
      decoded.frame = e.reconstruction := by
  obtain ⟨mesh, hcoded, -⟩ := c.coding_of_encode he
  obtain ⟨n, hdecode⟩ := decode_of_encodeFrame c.valid hcoded
  refine ⟨⟨e.header, e.reconstruction, n⟩, ?_, rfl, rfl⟩
  rw [decode, hmodel, hdecode]

/-- A picture in four blocks, read by a codec with the default settings. -/
theorem decode_encode_fourBlocks :
    ∃ e, fourBlocks.encode .slope = .ok e ∧
      ∃ decoded, (Codec.mk .standard {} rfl).decode e.bytes = .ok decoded ∧
        decoded.header = e.header ∧ decoded.frame = e.reconstruction := by
  obtain ⟨e, he⟩ := exists_encode_slope
  exact ⟨e, he, decode_encode fourBlocks (Codec.mk .standard {} rfl) rfl .slope e (.inl he)⟩

end Codec

end HopCodec
