/-
Advanced mode at full relevance is parallel mode.  No block loses a sample, so both modes code the
same samples in the same blocks; their streams differ in the mode and in the quality and mesh that
only advanced mode transmits.
-/
import HopCodec.Proofs.Block.Factor
import HopCodec.Proofs.Block.FullRelevance
import HopCodec.Proofs.Frame.Channel
import HopCodec.Proofs.Frame.SecondGeneration
import HopCodec.Proofs.Frame.Transmission

namespace HopCodec

open BitWriter Single

namespace BlockGrid

def rectangle (b : Block) : (Nat × Nat) × Nat × Nat :=
  ((b.x.start, b.y.start), b.width, b.height)

variable {g g' : BlockGrid} {width height : Nat}

/-- Grids that are cut alike have their blocks in the same rectangles. -/
theorem CutAlike.rectangles_eq (halike : g.CutAlike g') (h : g.Tiles width height)
    (h' : g'.Tiles width height) :
    g'.blocks.toList.map rectangle = g.blocks.toList.map rectangle := by
  have hsize : g'.blocks.size = g.blocks.size := by
    rw [h'.size_blocks, h.size_blocks, halike.blocksW, halike.blocksH]
  apply List.ext_getElem
  · simpa using hsize
  · intro i hi' hi
    have hlt' : i < g'.blocks.size := by simpa using hi'
    have hlt : i < g.blocks.size := by simpa using hi
    have hplaced := h.placed i hlt
    have hplaced' := h'.placed i hlt'
    simp only [List.getElem_map, Array.getElem_toList, rectangle, Block.width, Block.height,
      Axis.length]
    rw [hplaced.x.start_eq, hplaced.x.stop_eq, hplaced.y.start_eq, hplaced.y.stop_eq,
      hplaced'.x.start_eq, hplaced'.x.stop_eq, hplaced'.y.start_eq, hplaced'.y.stop_eq,
      halike.blocksW, halike.xBounds, halike.yBounds]

/-- The code of a block that keeps all its samples depends on its rectangle alone. -/
theorem codeBlocks_of_rectangles (p : Predictor) (plane : Plane)
    (hrectangles : g'.blocks.toList.map rectangle = g.blocks.toList.map rectangle)
    (hfull : g.Full) (hfull' : g'.Full) :
    g'.blocks.toList.map (p.codeBlock plane) = g.blocks.toList.map (p.codeBlock plane) := by
  have hcode : ∀ {k : BlockGrid}, k.Full → k.blocks.toList.map (p.codeBlock plane) =
      (k.blocks.toList.map rectangle).map fun r =>
        let pixels := plane.crop r.1.1 r.1.2 r.2.1 r.2.2
        let scan := p.encodeBlock r.2.1 r.2.2 pixels
        ⟨pixels.getD 0 0, scan.hops, scan.values⟩ := by
    intro k hk
    rw [List.map_map]
    apply List.map_congr_left
    intro b hb
    exact p.codeBlock_of_full plane (hk b (Array.mem_toList_iff.mp hb))
  rw [hcode hfull', hcode hfull, hrectangles]

/-- Where the blocks of a plane are put depends on their rectangles alone. -/
theorem assemble_of_rectangles
    (hrectangles : g'.blocks.toList.map rectangle = g.blocks.toList.map rectangle)
    (pixels : List Bytes) : g'.assemble width height pixels = g.assemble width height pixels := by
  have hpaste (k : BlockGrid) (blank : Plane) : (k.blocks.toList.zip pixels).foldl pasteBlock blank =
      ((k.blocks.toList.map rectangle).zip pixels).foldl
        (fun plane e => plane.paste e.1.1.1 e.1.1.2 e.1.2.1 e.1.2.2 e.2) blank := by
    rw [List.zip_map_left, List.foldl_map]
    rfl
  have hassemble (k : BlockGrid) : k.assemble width height pixels =
      (Plane.new? width height).map fun blank =>
        (k.blocks.toList.zip pixels).foldl pasteBlock blank := by
    unfold assemble
    cases Plane.new? width height <;> rfl
  rw [hassemble, hassemble]
  simp only [hpaste, hrectangles]

end BlockGrid

def Settings.inParallel (s : Settings) : Settings :=
  { s with mode := .parallel }

def FrameHeader.inParallel (h : FrameHeader) : FrameHeader :=
  { h with mode := .parallel }

theorem Settings.validate_inParallel {s : Settings} (hs : s.validate = .ok ())
    (hmode : s.mode = .advanced) : s.inParallel.validate = .ok () := by
  have haverage : s.prediction ≠ .weighted := fun hweighted => by
    have hsequential := (validate_eq_ok hs).2.2 hweighted
    rw [hmode] at hsequential
    cases hsequential
  have hfault : s.inParallel.fault? = s.fault? := by
    simp [fault?, inParallel, haverage]
  unfold validate at hs ⊢
  rwa [hfault]

/-- A header that is valid in advanced mode is valid in parallel mode, with the same grids. -/
theorem FrameHeader.grids_inParallel {h : FrameHeader} {g : FrameGrids} (hg : h.grids = .ok g) :
    h.inParallel.grids = .ok g := by
  obtain ⟨hluma, hchroma, -⟩ := grids_eq_ok_iff.mp hg
  exact grids_eq_ok_iff.mpr ⟨hluma, hchroma, fun hmode => by cases hmode⟩

theorem FrameHeader.validate_inParallel {h : FrameHeader} (hvalid : h.validate = .ok ())
    (hmode : h.mode = .advanced) : h.inParallel.validate = .ok () := by
  obtain ⟨hrange, g, hg⟩ := h.validate_eq_ok_iff.mp hvalid
  refine h.inParallel.validate_eq_ok_iff.mpr ⟨?_, g, grids_inParallel hg⟩
  refine { hrange with single := fun hsequential => ?_, average := fun hweighted => ?_ }
  · cases hsequential
  · have hsequential := hrange.average hweighted
    rw [hmode] at hsequential
    cases hsequential

theorem Model.headerOf_inParallel {s : Settings} {f : Frame} {h : FrameHeader}
    (hmode : s.mode = .advanced) (hheader : headerOf s f = .ok h) :
    headerOf s.inParallel f = .ok h.inParallel := by
  obtain ⟨hsize, rfl, hvalid⟩ := headerOf_eq_ok_iff.mp hheader
  refine headerOf_eq_ok_iff.mpr ⟨hsize, ?_, FrameHeader.validate_inParallel hvalid hmode⟩
  simp [FrameHeader.inParallel, Settings.header, Settings.inParallel, hmode]

/-- Grids with the same rectangles put the same planes together. -/
theorem FrameGrids.assemble_of_rectangles {g g' : FrameGrids} (h : FrameHeader)
    (hrectangles : ∀ k, (g'.channels.get k).blocks.toList.map BlockGrid.rectangle =
      (g.channels.get k).blocks.toList.map BlockGrid.rectangle)
    (pixels : Channels (List Bytes)) : g'.assemble h pixels = g.assemble h pixels := by
  have hluma : g'.luma.blocks.toList.map BlockGrid.rectangle =
      g.luma.blocks.toList.map BlockGrid.rectangle := hrectangles .luma
  have hchroma : g'.chroma.blocks.toList.map BlockGrid.rectangle =
      g.chroma.blocks.toList.map BlockGrid.rectangle := hrectangles .chromaA
  unfold assemble
  simp only [BlockGrid.assemble_of_rectangles hluma, BlockGrid.assemble_of_rectangles hchroma]

def FrameHeader.bitsBehindMode (h : FrameHeader) : List Bool :=
  (wordBytes h.width).flatMap (fun b => spell b.toNat 8) ++
    (wordBytes h.height).flatMap (fun b => spell b.toNat 8) ++ spell h.blocksW.toNat 8 ++
    spell h.blocksH.toNat 8 ++ spell h.parameterByte.toNat 8

theorem FrameHeader.bits_eq_nibbles (h : FrameHeader) :
    h.bits = spell h.chroma.code 4 ++ spell h.mode.code 4 ++ h.bitsBehindMode := by
  have hbyte : spell h.modeByte.toNat 8 = spell h.chroma.code 4 ++ spell h.mode.code 4 := by
    rw [spell_add h.modeByte.toNat 4 4, ← spell_mod h.modeByte.toNat 4]
    exact congr (congrArg _ (congrArg (spell · 4) h.modeByte_div))
      (congrArg (spell · 4) h.modeByte_mod)
  rw [bits, hbyte, bitsBehindMode]
  simp only [List.append_assoc]

/-- The bits of a prologue between its mode and its sampling. -/
def Prologue.bitsBehindMode (p : Prologue) : List Bool :=
  p.header.bitsBehindMode ++ p.seeds.toList.flatMap seedBits ++ p.chromaTable.headerBits ++
    p.lumaTable.headerBits

theorem Prologue.bits_eq_nibbles (p : Prologue) :
    p.bits = spell p.header.chroma.code 4 ++ spell p.header.mode.code 4 ++ p.bitsBehindMode ++
      samplingBits p.sampling := by
  rw [bits, p.header.bits_eq_nibbles, bitsBehindMode]
  simp only [List.append_assoc]

def FrameHeader.topMesh (h : FrameHeader) : RelevanceMesh :=
  .uniform h.blocksW.toNat h.blocksH.toNat .top

namespace Coding

variable {m : Model} {s : Settings} {f : Frame}

theorem sampling_inParallel (c' : Coding m s.inParallel f none) : c'.sampling = none := by
  have hmode : s.inParallel.mode ≠ .advanced := fun hadvanced => by cases hadvanced
  rw [sampling, Model.samplingOf, if_neg hmode]

section Top

variable {h : FrameHeader} (hmode : s.mode = .advanced)
  (hheader : Model.headerOf s f = .ok h)
  (hfactor : AtLeast (compressionFactor m.pow s.quality.toNat) 0)
  (c : Coding m s f (some h.topMesh))

include hmode hheader hfactor

/-- At full relevance no channel drops a sample. -/
theorem full_top (k : Channel) : (c.grids.channels.get k).Full := by
  have hh : c.header = h := Except.ok.inj (c.header_eq.symm.trans hheader)
  have fit := c.full_fit
  have hrange := c.inRange
  have hgrids := c.grids_eq
  simp only [Model.samplingOf, hmode, if_true, Option.getD_some, Model.sampledGrids] at hgrids
  obtain ⟨hluma, hchroma⟩ := FrameGrids.sample_eq_ok_iff.mp hgrids
  have hmesh : h.topMesh = .uniform c.full.luma.blocksW c.full.luma.blocksH .top := by
    rw [fit.luma_blocks.1, fit.luma_blocks.2, hh]
    rfl
  have hsmall : FrameHeader.dimensionMax < 2 ^ 24 := by decide
  have hfull : c.grids.luma.Full :=
    BlockGrid.full_applyMesh_top hmesh fit.luma (lt_of_le_of_lt hrange.width_le hsmall)
      (lt_of_le_of_lt hrange.height_le hsmall) hfactor hluma
  have hfull' : c.grids.chroma.Full := BlockGrid.full_subsample hfull hchroma
  cases k
  · exact hfull
  · exact hfull'
  · exact hfull'

variable (hs : s.validate = .ok ()) (c' : Coding m s.inParallel f none)

omit hfactor in
/-- What parallel mode codes the frame with. -/
theorem ground_inParallel :
    c'.header = h.inParallel ∧ c'.predictor = c.predictor ∧ c'.grids = c.full := by
  have hh : c.header = h := Except.ok.inj (c.header_eq.symm.trans hheader)
  have hheader' : c'.header = h.inParallel :=
    Except.ok.inj (c'.header_eq.symm.trans (Model.headerOf_inParallel hmode hheader))
  have hfull : c'.full = c.full := by
    have hgrids := c'.full_eq
    rw [hheader', FrameHeader.grids_inParallel (hh ▸ c.full_eq)] at hgrids
    exact (Except.ok.inj hgrids).symm
  have hgrids : c'.grids = c'.full := by
    have hsampled : m.sampledGrids f.chroma c'.full c'.sampling = .ok c'.grids := c'.grids_eq
    rw [c'.sampling_inParallel] at hsampled
    exact (Except.ok.inj hsampled).symm
  exact ⟨hheader', Except.ok.inj (c'.predictor_eq.symm.trans c.predictor_eq), hgrids.trans hfull⟩

include hs in
omit hmode hheader hfactor in
theorem rectangles_top (k : Channel) :
    (c.grids.channels.get k).blocks.toList.map BlockGrid.rectangle =
      (c.full.channels.get k).blocks.toList.map BlockGrid.rectangle := by
  have halike := Model.cutAlike_sampledGrids m c.full_eq _ (c.header_chroma.symm ▸ c.grids_eq) k
  exact halike.rectangles_eq (c.full_fit.tiles k) ((c.fit hs).tiles k)

include hs in
/-- Both modes code the same blocks with the same tables. -/
theorem blocks_top : c.blocks = c'.blocks ∧ c.lumaTable = c'.lumaTable ∧
    c.chromaTable = c'.chromaTable := by
  obtain ⟨-, hpredictor, hgrids⟩ := ground_inParallel hmode hheader c c'
  have hget : ∀ k, c.blocks.get k = c'.blocks.get k := by
    intro k
    rw [c.get_blocks, c'.get_blocks, hpredictor, hgrids]
    refine BlockGrid.codeBlocks_of_rectangles _ _ (c.rectangles_top hs k) ?_
      (c.full_top hmode hheader hfactor k)
    obtain ⟨hluma, hchroma⟩ := FrameHeader.full_of_grids c.full_eq
    cases k
    · exact hluma
    · exact hchroma
    · exact hchroma
  have hblocks := Channels.ext_get hget
  have hluma : (Model.histogram c.blocks.luma).codeTable = .ok c.lumaTable := c.lumaTable_eq
  have hchroma : ((Model.histogram c.blocks.chromaA).merge
      (Model.histogram c.blocks.chromaB)).codeTable = .ok c.chromaTable := c.chromaTable_eq
  rw [hblocks] at hluma hchroma
  exact ⟨hblocks, Except.ok.inj (hluma.symm.trans c'.lumaTable_eq),
    Except.ok.inj (hchroma.symm.trans c'.chromaTable_eq)⟩

include hs in
omit hfactor in
/-- Both modes put the same reconstruction together. -/
theorem assemble_top (pixels : Channels (List Bytes)) :
    c.grids.assemble c.header pixels = c'.grids.assemble c'.header pixels := by
  obtain ⟨hheader', -, hgrids⟩ := ground_inParallel hmode hheader c c'
  have hh : c.header = h := Except.ok.inj (c.header_eq.symm.trans hheader)
  rw [hheader', hgrids, hh, FrameGrids.assemble_of_rectangles h (c.rectangles_top hs)]
  rfl

include hs in
/-- The stream of advanced mode has its own mode, and quality and mesh behind the bits that both
modes write before their symbols. -/
theorem bits_top :
    c.prologue.bits ++ c.symbolBits = spell h.chroma.code 4 ++ spell FrameMode.advanced.code 4 ++
      c.prologue.bitsBehindMode ++ (spell s.quality.toNat 8 ++ h.topMesh.bits) ++ c.symbolBits ∧
    c'.prologue.bits ++ c'.symbolBits = spell h.chroma.code 4 ++ spell FrameMode.parallel.code 4 ++
      c.prologue.bitsBehindMode ++ c.symbolBits := by
  obtain ⟨hheader', -, -⟩ := ground_inParallel hmode hheader c c'
  obtain ⟨hblocks, hlumaTable, hchromaTable⟩ := blocks_top hmode hheader hfactor c hs c'
  have hh : c.prologue.header = h := Except.ok.inj (c.header_eq.symm.trans hheader)
  have hh' : c'.prologue.header = h.inParallel := hheader'
  have hmode' : h.mode = .advanced := hh ▸ c.header_mode.trans hmode
  have hsampling : c.prologue.sampling = some ⟨s.quality, h.topMesh⟩ := if_pos hmode
  have hsampling' : c'.prologue.sampling = none := c'.sampling_inParallel
  have hbehind : c'.prologue.bitsBehindMode = c.prologue.bitsBehindMode := by
    have hbits : c'.prologue.header.bitsBehindMode = c.prologue.header.bitsBehindMode := by
      rw [hh', hh]
      rfl
    rw [Prologue.bitsBehindMode, Prologue.bitsBehindMode, hbits]
    simp only [prologue, hblocks, hlumaTable, hchromaTable]
  have hsymbols : c'.symbolBits = c.symbolBits := by
    rw [symbolBits, symbolBits, hblocks, hlumaTable, hchromaTable]
  constructor
  · rw [c.prologue.bits_eq_nibbles, hh, hmode', hsampling]
    rfl
  · rw [c'.prologue.bits_eq_nibbles, hh', hsampling', hbehind, hsymbols,
      Prologue.samplingBits, List.append_nil]
    rfl

end Top

end Coding

def Codec.inParallel (c : Codec) (hmode : c.settings.mode = .advanced) : Codec :=
  ⟨c.model, c.settings.inParallel, Settings.validate_inParallel c.valid hmode⟩

namespace Codec

/-- Advanced mode at full relevance is parallel mode.  Whatever an advanced header accepts is coded
in both modes with the same seeds, hops and codewords and to the same reconstruction, and the
streams differ in the mode and in the quality and mesh behind the rest of the prologue alone. -/
theorem encodeWithMesh_top (c : Codec) (hmode : c.settings.mode = .advanced)
    (hpow : 0.0 ≤ compressionFactor c.model.pow c.settings.quality.toNat) (f : Frame)
    (h : FrameHeader) (hheader : Model.headerOf c.settings f = .ok h) :
    ∃ e e' t t', c.encodeWithMesh f h.topMesh = .ok e ∧ (c.inParallel hmode).encode f = .ok e' ∧
      e.reconstruction = e'.reconstruction ∧
      Transmission.receive c.model.pow e.bytes = .ok t ∧
      Transmission.receive c.model.pow e'.bytes = .ok t' ∧
      t.prologue.header = h ∧ t'.prologue.header = h.inParallel ∧
      t.prologue.sampling = some ⟨c.settings.quality, h.topMesh⟩ ∧ t'.prologue.sampling = none ∧
      t.prologue.seeds = t'.prologue.seeds ∧ t.hops = t'.hops ∧
      (∀ hop, t.prologue.lumaTable.code? hop = t'.prologue.lumaTable.code? hop) ∧
      (∀ hop, t.prologue.chromaTable.code? hop = t'.prologue.chromaTable.code? hop) ∧
      ∃ front symbols padding padding', padding < 8 ∧ padding' < 8 ∧
        bitsOf e.bytes = spell h.chroma.code 4 ++ spell FrameMode.advanced.code 4 ++ front ++
          (spell c.settings.quality.toNat 8 ++ h.topMesh.bits) ++ symbols ++
            List.replicate padding false ∧
        bitsOf e'.bytes = spell h.chroma.code 4 ++ spell FrameMode.parallel.code 4 ++ front ++
          symbols ++ List.replicate padding' false := by
  have hfactor := atLeast_zero_of_le hpow
  have hfits : Model.MeshFits h (some h.topMesh) := by
    intro given hgiven
    cases hgiven
    exact ⟨rfl, rfl⟩
  have hfits' : Model.MeshFits h.inParallel none := fun given hgiven => by cases hgiven
  obtain ⟨coding⟩ := Model.exists_coding c.model c.valid hheader fun _ => hfits
  obtain ⟨coding'⟩ := Model.exists_coding c.model (c.inParallel hmode).valid
    (Model.headerOf_inParallel hmode hheader) fun _ => hfits'
  obtain ⟨e, he, hyields⟩ := coding.exists_encodeFrame
  obtain ⟨e', he', hyields'⟩ := coding'.exists_encodeFrame
  obtain ⟨hblocks, hlumaTable, hchromaTable⟩ :=
    coding.blocks_top hmode hheader hfactor c.valid coding'
  obtain ⟨hheader', -, -⟩ := Coding.ground_inParallel hmode hheader coding coding'
  have hh : coding.header = h := Except.ok.inj (coding.header_eq.symm.trans hheader)
  have hsampling : coding.sampling = some ⟨c.settings.quality, h.topMesh⟩ := if_pos hmode
  obtain ⟨chromaTable, lumaTable, hreceive, hchromaCodes, hlumaCodes⟩ :=
    coding.exists_receive c.valid he
  obtain ⟨chromaTable', lumaTable', hreceive', hchromaCodes', hlumaCodes'⟩ :=
    coding'.exists_receive (c.inParallel hmode).valid he'
  refine ⟨e, e', _, _, c.encodeWithMesh_eq_ok_iff.mpr ⟨hmode, he⟩, he', ?_, hreceive, hreceive',
    hh, hheader', hsampling, coding'.sampling_inParallel,
    congrArg (Channels.map (List.map CodedBlock.seed)) hblocks,
    congrArg (Channels.map (List.map CodedBlock.hops)) hblocks, fun hop => ?_, fun hop => ?_, ?_⟩
  · have hframe := hyields.frame_eq
    rw [hblocks, coding.assemble_top hmode hheader c.valid coding'] at hframe
    exact Except.ok.inj (hframe.symm.trans hyields'.frame_eq)
  · rw [hlumaCodes, hlumaCodes', hlumaTable]
  · rw [hchromaCodes, hchromaCodes', hchromaTable]
  · obtain ⟨padding, hpadding, hbits⟩ := hyields.bits_eq
    obtain ⟨padding', hpadding', hbits'⟩ := hyields'.bits_eq
    obtain ⟨hstream, hstream'⟩ := coding.bits_top hmode hheader hfactor c.valid coding'
    exact ⟨_, _, padding, padding', hpadding, hpadding',
      hbits.trans (congrArg (· ++ List.replicate padding false) hstream),
      hbits'.trans (congrArg (· ++ List.replicate padding' false) hstream')⟩

/-- Two blocks of eight by eight pixels, which other meshes would thin out. -/
theorem encodeWithMesh_top_twoBlocks :
    let c : Codec := ⟨⟨.ofLadders fun _ => Ladder.even, wholePower⟩,
      { mode := .advanced, blocksW := 2, blocksH := 1 }, rfl⟩
    let f : Frame := ⟨.yuv444, ⟨.slope 16 8, .slope 16 8, .slope 16 8⟩, rfl, rfl⟩
    let h : FrameHeader := c.settings.header .yuv444 16 8
    0.0 ≤ compressionFactor c.model.pow c.settings.quality.toNat ∧
      Model.headerOf c.settings f = .ok h ∧
        ∃ e e', c.encodeWithMesh f h.topMesh = .ok e ∧ (c.inParallel rfl).encode f = .ok e' ∧
          e.reconstruction = e'.reconstruction := by
  intro c f h
  have hpow : 0.0 ≤ compressionFactor c.model.pow c.settings.quality.toNat := by decide +kernel
  have hheader : Model.headerOf c.settings f = .ok h :=
    Model.headerOf_eq_ok_iff.mpr ⟨by decide, rfl, by decide +kernel⟩
  obtain ⟨e, e', -, -, he, he', hreconstruction, -⟩ := encodeWithMesh_top c rfl hpow f h hheader
  exact ⟨hpow, hheader, e, e', he, he', hreconstruction⟩

end Codec

end HopCodec
