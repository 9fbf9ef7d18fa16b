/-
Coding a frame.  Once a header is valid and a given mesh fits it, nothing can fail any more: every
plane has blocks, every block hops, every hop a codeword, and the planes fit into memory.  The
bits of a coded frame are its prologue, its hop symbols and a padding of zeros.
-/
import HopCodec.Frame.Coded
import HopCodec.Proofs.Frame.Assembly
import HopCodec.Proofs.Frame.Prologue
import HopCodec.Proofs.Huffman.Tree
import HopCodec.Proofs.Prediction.ClosedLoop

namespace HopCodec

namespace Model

open BitWriter

def hopsOf (blocks : List CodedBlock) : List Hop :=
  blocks.flatMap fun b => b.hops.toList

theorem get_histogram (blocks : List CodedBlock) (h : Hop) :
    (histogram blocks).get h = (hopsOf blocks).count h := by
  have hfold : ∀ m : Histogram,
      (blocks.foldl (fun m b => m.merge (Histogram.ofList b.hops.toList)) m).get h =
        m.get h + (hopsOf blocks).count h := by
    induction blocks with
    | nil => simp [hopsOf]
    | cons b rest ih =>
        intro m
        rw [List.foldl_cons, ih, Histogram.get_merge, Histogram.get_ofList, hopsOf, hopsOf,
          List.flatMap_cons, List.count_append]
        omega
  have hempty : Histogram.empty.get h = 0 := by
    simp [Histogram.empty]
  rw [histogram, hfold, hempty, Nat.zero_add]

/-- Covered blocks can be written, and their bits go behind those of the writer. -/
theorem exists_writeHops {t : CodeTable} {blocks : List CodedBlock}
    (hcovers : t.Covers (hopsOf blocks)) {w : BitWriter} (hw : w.Tidy) :
    ∃ w', writeHops t w blocks = .ok w' ∧ w'.Tidy ∧
      w'.bits = w.bits ++ (hopsOf blocks).flatMap t.symbolBits := by
  induction blocks generalizing w with
  | nil => exact ⟨w, rfl, hw, by simp [hopsOf]⟩
  | cons b rest ih =>
      have hsplit : hopsOf (b :: rest) = b.hops.toList ++ hopsOf rest := List.flatMap_cons
      rw [hsplit] at hcovers
      obtain ⟨w₁, hwrite, htidy, hbits⟩ := CodeTable.exists_writeSymbols
        (fun g hg => hcovers g (List.mem_append_left _ hg)) hw
      obtain ⟨w₂, hwrite', htidy', hbits'⟩ :=
        ih (fun g hg => hcovers g (List.mem_append_right _ hg)) htidy
      refine ⟨w₂, ?_, htidy', ?_⟩
      · rw [writeHops, List.foldlM_cons, hwrite]
        exact hwrite'
      · rw [hbits', hbits, hsplit, List.flatMap_append, List.append_assoc]

def sampledGrids (m : Model) (chroma : ChromaFormat) (full : FrameGrids) :
    Option Sampling → Except Fault FrameGrids
  | none => .ok full
  | some sampling => full.sample m.pow chroma sampling

/-- Code the blocks of sampled grids and write everything down. -/
def codeSampled (p : Predictor) (header : FrameHeader) (f : Frame) (sampling : Option Sampling)
    (grids : FrameGrids) : Except Fault CodedFrame := do
  let blocks := codeBlocks p f grids
  let lumaHops := histogram blocks.luma
  let chromaHops := (histogram blocks.chromaA).merge (histogram blocks.chromaB)
  let lumaTable ← lumaHops.codeTable.mapError Fault.table
  let chromaTable ← chromaHops.codeTable.mapError Fault.table
  let prologue : Prologue :=
    ⟨header, blocks.map (·.map CodedBlock.seed), chromaTable, lumaTable, sampling⟩
  let w ← writeHops lumaTable (prologue.write .empty) blocks.luma
  let w ← writeHops chromaTable w blocks.chromaA
  let w ← writeHops chromaTable w blocks.chromaB
  let reconstruction ← grids.assemble header (blocks.map (·.map CodedBlock.pixels))
  return ⟨header, w.finish, reconstruction, sampling.map Sampling.mesh, lumaHops.total,
    chromaHops.total⟩

theorem codeSampled_eq {p : Predictor} {header : FrameHeader} {f : Frame}
    {sampling : Option Sampling} {grids : FrameGrids} {lumaTable chromaTable : CodeTable}
    {w₁ w₂ w₃ : BitWriter} {frame : Frame}
    (hluma : (histogram (codeBlocks p f grids).luma).codeTable = .ok lumaTable)
    (hchroma : ((histogram (codeBlocks p f grids).chromaA).merge
      (histogram (codeBlocks p f grids).chromaB)).codeTable = .ok chromaTable)
    (hw₁ : writeHops lumaTable (Prologue.write ⟨header,
      (codeBlocks p f grids).map (·.map CodedBlock.seed), chromaTable, lumaTable, sampling⟩
        .empty) (codeBlocks p f grids).luma = .ok w₁)
    (hw₂ : writeHops chromaTable w₁ (codeBlocks p f grids).chromaA = .ok w₂)
    (hw₃ : writeHops chromaTable w₂ (codeBlocks p f grids).chromaB = .ok w₃)
    (hframe : grids.assemble header ((codeBlocks p f grids).map (·.map CodedBlock.pixels)) =
      .ok frame) :
    codeSampled p header f sampling grids =
      .ok ⟨header, w₃.finish, frame, sampling.map Sampling.mesh,
        (histogram (codeBlocks p f grids).luma).total,
        ((histogram (codeBlocks p f grids).chromaA).merge
          (histogram (codeBlocks p f grids).chromaB)).total⟩ := by
  unfold codeSampled
  simp only [bind, Except.bind, hluma, hchroma, Except.mapError, hw₁, hw₂, hw₃, hframe, pure,
    Except.pure]

/-- Coding a frame is finding its header and grids first, and then coding the sampled blocks. -/
theorem encodeFrame_eq_codeSampled (m : Model) (s : Settings) (f : Frame)
    (mesh : Option RelevanceMesh) :
    m.encodeFrame s f mesh = (do
      let p ← Predictor.new? m.tables s.ratio.toNat s.prediction
      let header ← headerOf s f
      let full ← header.grids.mapError Fault.asArgument
      let sampling := samplingOf p s f mesh full
      let grids ← m.sampledGrids f.chroma full sampling
      codeSampled p header f sampling grids) := by
  unfold encodeFrame
  congr 1
  funext p
  congr 1
  funext header
  congr 1
  funext full
  cases hsampling : samplingOf p s f mesh full with
  | none => rfl
  | some sampling => rfl

end Model

/-- What an encoder works out from a frame before it writes anything. -/
structure Coding (m : Model) (s : Settings) (f : Frame) (mesh : Option RelevanceMesh) where
  predictor : Predictor
  header : FrameHeader
  full : FrameGrids
  grids : FrameGrids
  lumaTable : CodeTable
  chromaTable : CodeTable
  predictor_eq : Predictor.new? m.tables s.ratio.toNat s.prediction = .ok predictor
  header_eq : Model.headerOf s f = .ok header
  full_eq : header.grids = .ok full
  grids_eq : m.sampledGrids f.chroma full (Model.samplingOf predictor s f mesh full) = .ok grids
  lumaTable_eq :
    (Model.histogram (Model.codeBlocks predictor f grids).luma).codeTable = .ok lumaTable
  chromaTable_eq :
    ((Model.histogram (Model.codeBlocks predictor f grids).chromaA).merge
      (Model.histogram (Model.codeBlocks predictor f grids).chromaB)).codeTable = .ok chromaTable

namespace Model

theorem headerOf_eq_ok_iff {s : Settings} {f : Frame} {h : FrameHeader} :
    headerOf s f = .ok h ↔
      (f.width < 1 <<< 32 ∧ f.height < 1 <<< 32) ∧
        h = s.header f.chroma (UInt32.ofNat f.width) (UInt32.ofNat f.height) ∧
          h.validate = .ok () := by
  simp only [Model.headerOf, ite_throw_eq_ok_iff, bind_eq_ok_iff, mapError_eq_ok_iff,
    pure_eq_ok_iff, Nat.not_le, and_assoc]
  refine and_congr_right fun _ => and_congr_right fun _ => ?_
  constructor
  · rintro ⟨⟨⟩, hvalid, rfl⟩
    exact ⟨rfl, hvalid⟩
  · rintro ⟨rfl, hvalid⟩
    exact ⟨_, hvalid, rfl⟩

end Model

theorem Settings.validate_eq_ok {s : Settings} (h : s.validate = .ok ()) :
    (Predictor.ratioMin ≤ s.ratio.toNat ∧ s.ratio.toNat ≤ Predictor.ratioMax) ∧
      s.quality ≤ Settings.qualityMax ∧ (s.prediction = .weighted → s.mode = .sequential) := by
  have hnone : s.fault? = none := by
    cases hfault : s.fault? with
    | some fault => simp [validate, hfault] at h
    | none => rfl
  unfold fault? at hnone
  split at hnone; · cases hnone
  split at hnone; · cases hnone
  split at hnone; · cases hnone
  split at hnone; · cases hnone
  next hratio hquality _ hweighted =>
    refine ⟨by omega, UInt8.not_lt.mp hquality, fun hprediction => ?_⟩
    by_contra hmode
    exact hweighted ⟨hprediction, hmode⟩

namespace Model

variable {m : Model} {s : Settings} {f : Frame} {h : FrameHeader} {full : FrameGrids}

/-- The mesh given, if there is one, has a corner for each corner of the header's grid. -/
def MeshFits (h : FrameHeader) (mesh : Option RelevanceMesh) : Prop :=
  ∀ given ∈ mesh, given.blocksW = h.blocksW.toNat ∧ given.blocksH = h.blocksH.toNat

theorem samplingFits_samplingOf (hs : s.validate = .ok ()) (hmode : h.mode = s.mode)
    (fit : full.Fit h) (p : Predictor) (f : Frame) {mesh : Option RelevanceMesh}
    (hmesh : s.mode = .advanced → MeshFits h mesh) :
    Prologue.SamplingFits h (samplingOf p s f mesh full) := by
  unfold samplingOf
  by_cases hadvanced : s.mode = .advanced
  · rw [if_pos hadvanced]
    refine ⟨hmode.trans hadvanced, (Settings.validate_eq_ok hs).2.1, ?_⟩
    cases mesh with
    | none => exact fit.luma_blocks
    | some given => exact hmesh hadvanced given rfl
  · rw [if_neg hadvanced]
    exact fun heq => hadvanced (hmode.symm.trans heq)

/-- The grids can be sampled as any sampling that belongs to the header asks for. -/
theorem exists_sampledGrids (m : Model) (hfull : h.grids = .ok full) {sampling : Option Sampling}
    (hsampling : Prologue.SamplingFits h sampling) :
    ∃ grids, m.sampledGrids h.chroma full sampling = .ok grids ∧ grids.Fit h := by
  have fit := FrameHeader.fit_of_grids hfull
  cases sampling with
  | none => exact ⟨full, rfl, fit⟩
  | some sampling =>
      obtain ⟨hmode, -, hblocksW, hblocksH⟩ := hsampling
      exact FrameGrids.exists_sample hfull hmode
        ⟨hblocksW.trans fit.luma_blocks.1.symm, hblocksH.trans fit.luma_blocks.2.symm⟩ m.pow

/-- Every plane has at least one block, and that block at least one hop. -/
theorem exists_hop (p : Predictor) (plane : Plane) {g : BlockGrid} {width height : Nat}
    (hg : g.Tiles width height) (hpos : 0 < g.blocks.size) :
    ∃ hop, hop ∈ hopsOf (g.blocks.toList.map (p.codeBlock plane)) := by
  have hplaced := hg.placed 0 hpos
  have hcount : 0 < g.blocks[0].sampleCount :=
    Nat.mul_pos hplaced.x.samples_pos hplaced.y.samples_pos
  have hsize : 0 < (p.codeBlock plane g.blocks[0]).hops.size := by
    rw [Predictor.size_hops_codeBlock]
    exact hcount
  refine ⟨(p.codeBlock plane g.blocks[0]).hops[0], ?_⟩
  refine List.mem_flatMap.mpr ⟨p.codeBlock plane g.blocks[0], ?_, by simp⟩
  exact List.mem_map_of_mem (by simp)

theorem blocks_pos (hrange : h.InRange) (fit : full.Fit h) :
    0 < full.luma.blocks.size ∧ 0 < full.chroma.blocks.size := by
  rw [fit.size_luma, fit.size_chroma]
  exact ⟨Nat.mul_pos hrange.blocksW_pos hrange.blocksH_pos,
    Nat.mul_pos hrange.blocksW_pos hrange.blocksH_pos⟩

/-- Whatever the pixels, a valid header and a fitting mesh are all that coding needs. -/
theorem exists_coding (m : Model) (hs : s.validate = .ok ()) (hheader : headerOf s f = .ok h)
    {mesh : Option RelevanceMesh} (hmesh : s.mode = .advanced → MeshFits h mesh) :
    Nonempty (Coding m s f mesh) := by
  obtain ⟨-, heq, hvalid⟩ := headerOf_eq_ok_iff.mp hheader
  obtain ⟨hrange, full, hfull⟩ := (FrameHeader.validate_eq_ok_iff h).mp hvalid
  have hchroma : h.chroma = f.chroma := by rw [heq]; rfl
  have hmode : h.mode = s.mode := by rw [heq]; rfl
  have fit := FrameHeader.fit_of_grids hfull
  let p : Predictor := ⟨m.tables, s.ratio.toNat, s.prediction⟩
  have hp : Predictor.new? m.tables s.ratio.toNat s.prediction = .ok p :=
    if_pos (Settings.validate_eq_ok hs).1
  have hsampling := samplingFits_samplingOf hs hmode fit p f hmesh
  obtain ⟨grids, hgrids, fitted⟩ := exists_sampledGrids m hfull hsampling
  obtain ⟨hlumaPos, hchromaPos⟩ := blocks_pos hrange fitted
  obtain ⟨lumaHop, hlumaHop⟩ := exists_hop p f.planes.luma fitted.luma hlumaPos
  obtain ⟨chromaHop, hchromaHop⟩ := exists_hop p f.planes.chromaA fitted.chroma hchromaPos
  have hlumaCount : 0 < (histogram (codeBlocks p f grids).luma).get lumaHop := by
    rw [get_histogram]
    exact List.count_pos_iff.mpr hlumaHop
  have hchromaCount : 0 < ((histogram (codeBlocks p f grids).chromaA).merge
      (histogram (codeBlocks p f grids).chromaB)).get chromaHop := by
    rw [Histogram.get_merge, get_histogram]
    exact Nat.add_pos_left (List.count_pos_iff.mpr hchromaHop) _
  obtain ⟨-, lumaTable, hlumaTable, -⟩ := Histogram.exists_codeTable ⟨lumaHop, hlumaCount⟩
  obtain ⟨-, chromaTable, hchromaTable, -⟩ :=
    Histogram.exists_codeTable ⟨chromaHop, hchromaCount⟩
  rw [hchroma] at hgrids
  exact ⟨⟨p, h, full, grids, lumaTable, chromaTable, hp, hheader, hfull, hgrids, hlumaTable,
    hchromaTable⟩⟩

end Model

theorem Predictor.eq_of_new? {tables : Tables} {ratio : Nat} {prediction : Prediction}
    {p : Predictor} (hp : new? tables ratio prediction = .ok p) :
    p = ⟨tables, ratio, prediction⟩ := by
  unfold new? at hp
  split at hp
  · exact (Except.ok.inj hp).symm
  · cases hp

namespace Coding

open BitWriter

variable {m : Model} {s : Settings} {f : Frame} {mesh : Option RelevanceMesh}

def sampling (c : Coding m s f mesh) : Option Sampling :=
  Model.samplingOf c.predictor s f mesh c.full

def blocks (c : Coding m s f mesh) : Channels (List CodedBlock) :=
  Model.codeBlocks c.predictor f c.grids

def prologue (c : Coding m s f mesh) : Prologue :=
  ⟨c.header, c.blocks.map (·.map CodedBlock.seed), c.chromaTable, c.lumaTable, c.sampling⟩

def symbolBits (c : Coding m s f mesh) : List Bool :=
  (Model.hopsOf c.blocks.luma).flatMap c.lumaTable.symbolBits ++
    (Model.hopsOf c.blocks.chromaA).flatMap c.chromaTable.symbolBits ++
      (Model.hopsOf c.blocks.chromaB).flatMap c.chromaTable.symbolBits

variable (c : Coding m s f mesh)

theorem valid : c.header.validate = .ok () :=
  (Model.headerOf_eq_ok_iff.mp c.header_eq).2.2

theorem header_chroma : c.header.chroma = f.chroma := by
  rw [(Model.headerOf_eq_ok_iff.mp c.header_eq).2.1]
  rfl

theorem header_mode : c.header.mode = s.mode := by
  rw [(Model.headerOf_eq_ok_iff.mp c.header_eq).2.1]
  rfl

theorem header_prediction :
    c.header.ratio = s.ratio ∧ c.header.prediction = s.prediction := by
  rw [(Model.headerOf_eq_ok_iff.mp c.header_eq).2.1]
  exact ⟨rfl, rfl⟩

theorem header_size : c.header.width.toNat = f.width ∧ c.header.height.toNat = f.height := by
  obtain ⟨⟨hwidth, hheight⟩, heq, -⟩ := Model.headerOf_eq_ok_iff.mp c.header_eq
  rw [heq]
  exact ⟨UInt32.toNat_ofNat_of_lt hwidth, UInt32.toNat_ofNat_of_lt hheight⟩

theorem inRange : c.header.InRange :=
  ((FrameHeader.validate_eq_ok_iff c.header).mp c.valid).1

theorem full_fit : c.full.Fit c.header :=
  FrameHeader.fit_of_grids c.full_eq

theorem ratio_eq : c.predictor.ratio = s.ratio.toNat ∧ c.predictor.tables = m.tables ∧
    c.predictor.prediction = s.prediction := by
  rw [Predictor.eq_of_new? c.predictor_eq]
  exact ⟨rfl, rfl, rfl⟩

theorem ratio_range (hs : s.validate = .ok ()) :
    Predictor.ratioMin ≤ c.predictor.ratio ∧ c.predictor.ratio ≤ Predictor.ratioMax := by
  rw [c.ratio_eq.1]
  exact (Settings.validate_eq_ok hs).1

/-- Coding an advanced frame leaves no mesh but one that fits. -/
theorem meshFits (hmode : s.mode = .advanced) : Model.MeshFits c.header mesh := by
  intro given hgiven
  have hmesh : mesh = some given := hgiven
  subst hmesh
  have hgrids := c.grids_eq
  have fit := c.full_fit
  simp only [Model.samplingOf, hmode, if_true, Option.getD_some, Model.sampledGrids] at hgrids
  obtain ⟨hluma, -⟩ := FrameGrids.sample_eq_ok_iff.mp hgrids
  obtain ⟨hfits, -⟩ := BlockGrid.applyMesh_eq_ok_iff.mp hluma
  exact ⟨hfits.1.trans fit.luma_blocks.1, hfits.2.trans fit.luma_blocks.2⟩

theorem samplingFits (hs : s.validate = .ok ()) :
    Prologue.SamplingFits c.header c.sampling :=
  Model.samplingFits_samplingOf hs c.header_mode c.full_fit c.predictor f c.meshFits

theorem fit (hs : s.validate = .ok ()) : c.grids.Fit c.header := by
  obtain ⟨grids, hgrids, hfit⟩ := Model.exists_sampledGrids m c.full_eq (c.samplingFits hs)
  have hsame : grids = c.grids := by
    have hgrids' := c.grids_eq
    rw [← c.header_chroma] at hgrids'
    exact Except.ok.inj (hgrids.symm.trans hgrids')
  rwa [hsame] at hfit

/-- A table of a histogram that counts all hops of a list covers the list. -/
theorem covers_of_codeTable {counts : Histogram} {t : CodeTable}
    (ht : counts.codeTable = .ok t) (hops : List Hop) (hcounts : ∀ h ∈ hops, 0 < counts.get h) :
    t.Covers hops := by
  intro h hmem
  obtain ⟨-, t', ht', -, -, hcodes⟩ := Histogram.exists_codeTable ⟨h, hcounts h hmem⟩
  rw [ht] at ht'
  obtain rfl := Except.ok.inj ht'
  exact hcodes h (hcounts h hmem)

theorem covers_luma : c.lumaTable.Covers (Model.hopsOf c.blocks.luma) := by
  apply covers_of_codeTable c.lumaTable_eq
  intro h hmem
  rw [Model.get_histogram]
  exact List.count_pos_iff.mpr hmem

theorem covers_chroma : c.chromaTable.Covers (Model.hopsOf c.blocks.chromaA) ∧
    c.chromaTable.Covers (Model.hopsOf c.blocks.chromaB) := by
  constructor
  · apply covers_of_codeTable c.chromaTable_eq
    intro h hmem
    rw [Histogram.get_merge, Model.get_histogram]
    exact Nat.add_pos_left (List.count_pos_iff.mpr hmem) _
  · apply covers_of_codeTable c.chromaTable_eq
    intro h hmem
    rw [Histogram.get_merge, Model.get_histogram, Model.get_histogram]
    exact Nat.add_pos_right _ (List.count_pos_iff.mpr hmem)

/-- What a coded frame holds: the reconstruction put together from the blocks, and the bits of the
prologue and the hop symbols with a padding. -/
structure Yields (e : CodedFrame) : Prop where
  header_eq : e.header = c.header
  mesh_eq : e.mesh = c.sampling.map Sampling.mesh
  lumaHops_eq : e.lumaHops = (Model.histogram c.blocks.luma).total
  chromaHops_eq : e.chromaHops =
    ((Model.histogram c.blocks.chromaA).merge (Model.histogram c.blocks.chromaB)).total
  frame_eq : c.grids.assemble c.header (c.blocks.map (·.map CodedBlock.pixels)) =
    .ok e.reconstruction
  bits_eq : ∃ padding, padding < 8 ∧ bitsOf e.bytes =
    c.prologue.bits ++ c.symbolBits ++ List.replicate padding false

/-- What is left to do once the grids are sampled. -/
theorem encodeFrame_eq_codeSampled :
    m.encodeFrame s f mesh = Model.codeSampled c.predictor c.header f c.sampling c.grids := by
  have hfull : c.header.grids.mapError Fault.asArgument = .ok c.full := by
    rw [c.full_eq]
    rfl
  rw [Model.encodeFrame_eq_codeSampled, c.predictor_eq]
  simp only [bind, Except.bind]
  rw [c.header_eq]
  simp only
  rw [hfull]
  simp only
  rw [c.grids_eq]
  rfl

/-- Nothing can fail once the tables are built. -/
theorem exists_encodeFrame : ∃ e, m.encodeFrame s f mesh = .ok e ∧ c.Yields e := by
  obtain ⟨htidy₀, hbits₀⟩ := Prologue.writes_write c.prologue .empty tidy_empty
  obtain ⟨w₁, hw₁, htidy₁, hbits₁⟩ := Model.exists_writeHops c.covers_luma htidy₀
  obtain ⟨w₂, hw₂, htidy₂, hbits₂⟩ := Model.exists_writeHops c.covers_chroma.1 htidy₁
  obtain ⟨w₃, hw₃, htidy₃, hbits₃⟩ := Model.exists_writeHops c.covers_chroma.2 htidy₂
  obtain ⟨padding, hpadding, hbits⟩ := BitWriter.bitsOf_finish w₃ htidy₃
  obtain ⟨frame, hframe⟩ :=
    FrameGrids.exists_assemble c.inRange c.grids (c.blocks.map (·.map CodedBlock.pixels))
  refine ⟨⟨c.header, w₃.finish, frame, c.sampling.map Sampling.mesh,
    (Model.histogram c.blocks.luma).total,
    ((Model.histogram c.blocks.chromaA).merge (Model.histogram c.blocks.chromaB)).total⟩, ?_,
    rfl, rfl, rfl, rfl, hframe, padding, hpadding, ?_⟩
  · rw [c.encodeFrame_eq_codeSampled]
    exact Model.codeSampled_eq c.lumaTable_eq c.chromaTable_eq hw₁ hw₂ hw₃ hframe
  · rw [hbits, hbits₃, hbits₂, hbits₁, hbits₀, BitWriter.bits_empty, symbolBits]
    simp only [List.nil_append, List.append_assoc]

/-- What is worked out is what the coded frame holds. -/
theorem yields {e : CodedFrame} (he : m.encodeFrame s f mesh = .ok e) : c.Yields e := by
  obtain ⟨e', he', hyields⟩ := c.exists_encodeFrame
  rw [he] at he'
  obtain rfl := Except.ok.inj he'
  exact hyields

end Coding

namespace Model

variable {m : Model} {s : Settings} {f : Frame}

theorem new?_of_validate (m : Model) (hs : s.validate = .ok ()) :
    Predictor.new? m.tables s.ratio.toNat s.prediction =
      .ok ⟨m.tables, s.ratio.toNat, s.prediction⟩ :=
  if_pos (Settings.validate_eq_ok hs).1

/-- A frame without a valid header is refused for the reason its header is. -/
theorem encodeFrame_of_header_error (hs : s.validate = .ok ()) {fault : Fault}
    (hheader : headerOf s f = .error fault) (mesh : Option RelevanceMesh) :
    m.encodeFrame s f mesh = .error fault := by
  rw [encodeFrame_eq_codeSampled, new?_of_validate m hs, hheader]
  rfl

/-- Grids cannot be sampled by a mesh of another size. -/
theorem sampledGrids_mismatch {h : FrameHeader} {full : FrameGrids} (hfull : h.grids = .ok full)
    (hmode : s.mode = .advanced) {mesh : RelevanceMesh}
    (hmesh : ¬ (mesh.blocksW = h.blocksW.toNat ∧ mesh.blocksH = h.blocksH.toNat))
    (p : Predictor) :
    m.sampledGrids f.chroma full (samplingOf p s f (some mesh) full) =
      .error (.argument .meshMismatch) := by
  have fit := FrameHeader.fit_of_grids hfull
  rw [← fit.luma_blocks.1, ← fit.luma_blocks.2] at hmesh
  simp only [bind, Except.bind, samplingOf, hmode, if_true, sampledGrids, FrameGrids.sample,
    Option.getD_some, BlockGrid.applyMesh_mismatch hmesh]

/-- In advanced mode a mesh of another size than the grid is refused. -/
theorem encodeFrame_of_mismatch (hs : s.validate = .ok ()) {h : FrameHeader}
    (hheader : headerOf s f = .ok h) (hmode : s.mode = .advanced) {mesh : RelevanceMesh}
    (hmesh : ¬ (mesh.blocksW = h.blocksW.toNat ∧ mesh.blocksH = h.blocksH.toNat)) :
    m.encodeFrame s f (some mesh) = .error (.argument .meshMismatch) := by
  obtain ⟨-, -, hvalid⟩ := headerOf_eq_ok_iff.mp hheader
  obtain ⟨-, full, hfull⟩ := (FrameHeader.validate_eq_ok_iff h).mp hvalid
  rw [encodeFrame_eq_codeSampled, new?_of_validate m hs, hheader]
  simp only [bind, Except.bind, hfull, Except.mapError, sampledGrids_mismatch hfull hmode hmesh]

/-- The three ends of coding a frame: no valid header, a mesh that does not fit, or a coded
frame. -/
theorem encodeFrame_cases (m : Model) (hs : s.validate = .ok ()) (f : Frame)
    (mesh : Option RelevanceMesh) :
    (∃ fault, headerOf s f = .error fault ∧ m.encodeFrame s f mesh = .error fault) ∨
      (∃ h given, headerOf s f = .ok h ∧ s.mode = .advanced ∧ mesh = some given ∧
        ¬ (given.blocksW = h.blocksW.toNat ∧ given.blocksH = h.blocksH.toNat) ∧
          m.encodeFrame s f mesh = .error (.argument .meshMismatch)) ∨
      Nonempty (Coding m s f mesh) := by
  cases hheader : headerOf s f with
  | error fault =>
      exact .inl ⟨fault, rfl, encodeFrame_of_header_error hs hheader mesh⟩
  | ok h =>
      by_cases hfits : s.mode = .advanced → MeshFits h mesh
      · exact .inr (.inr (exists_coding m hs hheader hfits))
      · obtain ⟨hmode, hmesh⟩ := Classical.not_imp.mp hfits
        cases mesh with
        | none => exact absurd (fun given hgiven => by cases hgiven) hmesh
        | some given =>
            have hmismatch : ¬ (given.blocksW = h.blocksW.toNat ∧
                given.blocksH = h.blocksH.toNat) := by
              intro hequal
              apply hmesh
              rintro given' hgiven
              cases hgiven
              exact hequal
            exact .inr (.inl ⟨h, given, rfl, hmode, rfl, hmismatch,
              encodeFrame_of_mismatch hs hheader hmode hmismatch⟩)

theorem coding_of_encodeFrame {e : CodedFrame} {mesh : Option RelevanceMesh}
    (hs : s.validate = .ok ()) (he : m.encodeFrame s f mesh = .ok e) :
    Nonempty (Coding m s f mesh) := by
  rcases encodeFrame_cases m hs f mesh with ⟨_, -, herror⟩ | ⟨_, _, -, -, -, -, herror⟩ | hcoding
  · rw [he] at herror
    cases herror
  · rw [he] at herror
    cases herror
  · exact hcoding

end Model

end HopCodec
