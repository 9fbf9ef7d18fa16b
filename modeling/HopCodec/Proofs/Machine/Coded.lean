/-
Coding on the machine.  Once a header is valid and a mesh fits it, the blocks lie inside their
planes, the counts stay small and every hop has a codeword, so that every step after the header
has a result; before that the machine refuses what the plain codec refuses.
-/
import HopCodec.Machine.Coded
import HopCodec.Proofs.Frame.Outcome
import HopCodec.Proofs.Frame.RoundTrip
import HopCodec.Proofs.Machine.Counts
import HopCodec.Proofs.Machine.Decoded
import HopCodec.Proofs.Machine.Estimate

namespace HopCodec

/-- The histogram of a list of blocks on top of one of earlier blocks. -/
theorem Model.merge_histogram_cons (m : Histogram) (b : CodedBlock) (rest : List CodedBlock) :
    (m.merge (Histogram.ofList b.hops.toList)).merge (histogram rest) =
      m.merge (histogram (b :: rest)) := by
  refine HopMap.ext fun hop => ?_
  simp only [Histogram.get_merge, get_histogram, Histogram.get_ofList, hopsOf, List.flatMap_cons,
    List.count_append, Nat.add_assoc]

theorem Histogram.get_empty (hop : Hop) : empty.get hop = 0 :=
  HopMap.get_ofFn _ hop

theorem Histogram.merge_empty (m : Histogram) : m.merge empty = m :=
  HopMap.ext fun hop => by rw [get_merge, get_empty, Nat.add_zero]

theorem Histogram.empty_merge (m : Histogram) : empty.merge m = m :=
  HopMap.ext fun hop => by rw [get_merge, get_empty, Nat.zero_add]

namespace Machine

theorem mapError_asArgument {α : Type} (x : Except Fault α) :
    (lift x).mapError Stop.asArgument = lift (x.mapError Fault.asArgument) := by
  rcases x with fault | a
  · rfl
  · rfl

def CountedBlock.ofPlain (b : CodedBlock) : CountedBlock :=
  ⟨b, Histogram.ofList b.hops.toList⟩

def Coded.ofPlain (e : CodedFrame) : Coded :=
  ⟨e.header, e.bytes, .ofFrame e.reconstruction, e.mesh, e.lumaHops, e.chromaHops⟩

/-- The buffers of a frame are no larger than a machine can address. -/
structure Addressable (f : Frame) : Prop where
  luma : f.planes.luma.data.size < wordSize
  chromaA : f.planes.chromaA.data.size < wordSize
  chromaB : f.planes.chromaB.data.size < wordSize

namespace Forecast

variable {p : Predictor} {plane : Plane} {g : BlockGrid}

/-- Coding the blocks of a plane that they tile. -/
theorem codePlane_eq (hratio : RatioCovered p.ratio) {size : Nat × Nat}
    (hsize : size = (plane.width, plane.height)) (hg : g.Tiles size.1 size.2)
    (hwidth : Modest size.1) (hheight : Modest size.2) (hdata : plane.data.size < wordSize) :
    (ofPredictor p).codePlane (.ofPlane plane) g =
      .ok ((g.blocks.toList.map (p.codeBlock plane)).map .ofPlain) := by
  subst hsize
  let coded (b : Block) : CountedBlock := .ofPlain (p.codeBlock plane b)
  have hblock : ∀ i, i ∈ List.range g.blocks.size →
      (ofPredictor p).codeAt (.ofPlane plane) g i =
        .ok (coded (g.blocks.getD i ⟨.full 0 0, .full 0 0⟩)) := by
    intro i hi
    have hi : i < g.blocks.size := List.mem_range.mp hi
    have hwithin := hg.within (Array.mem_toList_iff.mpr (Array.getElem_mem hi))
    rw [codeAt, fetch_eq hi, ok_bind, codeBlock_eq hratio hwithin hwidth hheight hdata,
      Array.getD_eq_getD_getElem?, Array.getElem?_eq_getElem hi]
    rfl
  have hall : (List.range g.blocks.size).map
        (fun i => coded (g.blocks.getD i ⟨.full 0 0, .full 0 0⟩)) =
      (g.blocks.toList.map (p.codeBlock plane)).map .ofPlain := by
    apply List.ext_getElem
    · simp
    · intro i hi hi'
      simp at hi'
      simp [coded, hi']
  rw [codePlane, mapM_eq hblock, hall]

end Forecast

namespace Counts

/-- Adding up the counts of blocks that are not too many. -/
theorem addBlocks_eq {blocks : List CodedBlock} {m : Histogram}
    (h : ∀ hop, m hop + (Model.hopsOf blocks).count hop < wordSize) :
    addBlocks m (blocks.map .ofPlain) = .ok (m.merge (Model.histogram blocks)) := by
  induction blocks generalizing m with
  | nil =>
      change Except.ok m = Except.ok (m.merge Histogram.empty)
      rw [Histogram.merge_empty]
  | cons b rest ih =>
      have hsplit : ∀ hop, (Model.hopsOf (b :: rest)).count hop =
          b.hops.toList.count hop + (Model.hopsOf rest).count hop := by
        intro hop
        rw [Model.hopsOf, List.flatMap_cons, List.count_append]
        rfl
      have hfirst : merge m (Histogram.ofList b.hops.toList) =
          .ok (m.merge (Histogram.ofList b.hops.toList)) := by
        refine merge_eq fun hop => ?_
        have hhop := h hop
        rw [hsplit] at hhop
        rw [Histogram.get_ofList]
        omega
      have hrest : ∀ hop, (m.merge (Histogram.ofList b.hops.toList)) hop +
          (Model.hopsOf rest).count hop < wordSize := by
        intro hop
        have hhop := h hop
        rw [hsplit] at hhop
        rw [Histogram.get_merge, Histogram.get_ofList]
        omega
      have hstep : addBlocks m ((b :: rest).map .ofPlain) =
          merge m (Histogram.ofList b.hops.toList) >>= fun m =>
            addBlocks m (rest.map .ofPlain) := rfl
      rw [hstep, hfirst, ok_bind, ih hrest, Model.merge_histogram_cons]

end Counts

namespace Forecast

theorem size_pixels_codeBlock {b : Block} {width height : Nat} (hb : b.Within width height)
    (p : Predictor) (plane : Plane) : (p.codeBlock plane b).pixels.size = b.width * b.height :=
  size_blockPixels hb (Predictor.size_scan _ _ _ _ _)

/-- Putting the coded blocks of all planes together. -/
theorem assemble_eq {h : FrameHeader} (hrange : h.InRange) {g : FrameGrids} (fit : g.Fit h)
    (p : Predictor) (f : Frame) :
    assemble h g ((Model.codeBlocks p f g).map (·.map CodedBlock.pixels)) =
      lift ((g.assemble h ((Model.codeBlocks p f g).map (·.map CodedBlock.pixels))).map
        Picture.ofFrame) := by
  obtain ⟨⟨hwidth, hheight⟩, hchromaW, hchromaH⟩ := hrange.modest
  have hsizes : ∀ {grid : BlockGrid} {width height : Nat}, grid.Tiles width height →
      ∀ plane : Plane, ∀ e ∈ grid.blocks.toList.zip
        ((grid.blocks.toList.map (p.codeBlock plane)).map CodedBlock.pixels),
          e.2.size = e.1.width * e.1.height := by
    intro grid width height hgrid plane e he
    have hwithin := hgrid.within (List.of_mem_zip he).1
    obtain ⟨k, hk, rfl⟩ := List.mem_iff_getElem.mp he
    simp only [List.getElem_zip, List.getElem_map] at hwithin ⊢
    exact size_pixels_codeBlock hwithin p plane
  rw [assemble, Header.chromaSize_eq, ok_bind]
  exact Picture.ofPlanes_assemble h g _
    (Grid.assemble_eq fit.luma hwidth hheight (hsizes fit.luma f.planes.luma))
    (Grid.assemble_eq fit.chroma hchromaW hchromaH (hsizes fit.chroma f.planes.chromaA))
    (Grid.assemble_eq fit.chroma hchromaW hchromaH (hsizes fit.chroma f.planes.chromaB))

end Forecast

/-- The hops of covered blocks are written as their codewords. -/
theorem Table.appends_writeHops {t : CodeTable} (ht : t.Sound) {blocks : List CodedBlock}
    (hcovers : t.Covers (Model.hopsOf blocks)) :
    Packer.Appends ((Table.ofPlain t).writeHops (blocks.map .ofPlain))
      ((Model.hopsOf blocks).flatMap t.symbolBits) := by
  have hblock : ∀ b ∈ blocks.map CountedBlock.ofPlain,
      Packer.Appends (Packer.writeAll (Table.ofPlain t).writeSymbol b.block.hops.toList)
        (b.block.hops.toList.flatMap t.symbolBits) := by
    rintro _ hb
    obtain ⟨b, hmem, rfl⟩ := List.mem_map.mp hb
    exact Table.appends_writeSymbols ht fun hop hhop =>
      hcovers hop (List.mem_flatMap.mpr ⟨b, hmem, hhop⟩)
  have hbits : (blocks.map CountedBlock.ofPlain).flatMap
      (fun b => b.block.hops.toList.flatMap t.symbolBits) =
        (Model.hopsOf blocks).flatMap t.symbolBits := by
    rw [Model.hopsOf, List.flatMap_assoc, List.flatMap_map]
    rfl
  rw [← hbits]
  exact .writeAll _ hblock

end Machine

namespace Coding

open Machine

variable {m : Model} {s : Settings} {f : Frame} {mesh : Option RelevanceMesh}
  (c : Coding m s f mesh)

/-- The planes of a coded frame are as large as its header says. -/
theorem plane_sizes :
    c.header.lumaSize = (f.planes.luma.width, f.planes.luma.height) ∧
      c.header.chromaSize = (f.planes.chromaA.width, f.planes.chromaA.height) ∧
        c.header.chromaSize = (f.planes.chromaB.width, f.planes.chromaB.height) := by
  obtain ⟨hwidth, hheight⟩ := c.header_size
  have hluma : c.header.lumaSize = (f.planes.luma.width, f.planes.luma.height) :=
    Prod.ext hwidth hheight
  have hchroma : c.header.chromaSize =
      f.chroma.chromaSize f.planes.luma.width f.planes.luma.height := by
    rw [FrameHeader.chromaSize, c.header_chroma, hwidth, hheight]
    rfl
  exact ⟨hluma, hchroma.trans f.chromaA_size.symm, hchroma.trans f.chromaB_size.symm⟩

variable (hs : s.validate = .ok ())

include hs

theorem tables_sound : c.lumaTable.Sound ∧ c.chromaTable.Sound := by
  obtain ⟨_, _, -, hluma⟩ := (c.sendable hs).luma_table
  obtain ⟨_, _, -, hchroma⟩ := (c.sendable hs).chroma_table
  exact ⟨CodeTable.sound_of_canonical hluma, CodeTable.sound_of_canonical hchroma⟩

/-- All planes are coded as the plain codec does it. -/
theorem codePlanes_eq (hdata : Addressable f) :
    (Forecast.ofPredictor c.predictor).codePlanes (Picture.ofFrame f).planes c.grids =
      .ok (c.blocks.map (·.map .ofPlain)) := by
  have fit := c.fit hs
  have hratio : RatioCovered c.predictor.ratio := c.ratio_range hs
  obtain ⟨⟨hwidth, hheight⟩, hchromaW, hchromaH⟩ := c.inRange.modest
  obtain ⟨hluma, ha, hb⟩ := c.plane_sizes
  have hcodeL := Forecast.codePlane_eq hratio hluma fit.luma hwidth hheight hdata.luma
  have hcodeA := Forecast.codePlane_eq hratio ha fit.chroma hchromaW hchromaH hdata.chromaA
  have hcodeB := Forecast.codePlane_eq hratio hb fit.chroma hchromaW hchromaH hdata.chromaB
  simp only [Forecast.codePlanes, Picture.ofFrame, Channels.map, hcodeL, hcodeA, hcodeB, ok_bind]
  rfl

omit hs in
/-- No more hops are counted than there are samples. -/
theorem counts_le (hop : Hop) :
    Model.histogram c.blocks.luma hop ≤ c.grids.sampleCount ∧
      ((Model.histogram c.blocks.chromaA).merge (Model.histogram c.blocks.chromaB)) hop ≤
        c.grids.sampleCount := by
  have hluma : (Model.hopsOf c.blocks.luma).length = c.grids.luma.sampleCount :=
    Model.length_hopsOf ..
  have ha : (Model.hopsOf c.blocks.chromaA).length = c.grids.chroma.sampleCount :=
    Model.length_hopsOf ..
  have hb : (Model.hopsOf c.blocks.chromaB).length = c.grids.chroma.sampleCount :=
    Model.length_hopsOf ..
  have hcountL := List.count_le_length (a := hop) (l := Model.hopsOf c.blocks.luma)
  have hcountA := List.count_le_length (a := hop) (l := Model.hopsOf c.blocks.chromaA)
  have hcountB := List.count_le_length (a := hop) (l := Model.hopsOf c.blocks.chromaB)
  rw [Histogram.get_merge, Model.get_histogram, Model.get_histogram, Model.get_histogram,
    FrameGrids.sampleCount]
  omega

theorem sampleCount_lt : c.grids.sampleCount < 0x1000000000000 :=
  Machine.sampleCount_lt (c.fit hs) c.inRange

/-- The hops of all blocks are counted as the plain codec counts them. -/
theorem addBlocks_eq :
    Counts.addBlocks .empty (c.blocks.luma.map .ofPlain) =
        .ok (Model.histogram c.blocks.luma) ∧
      Counts.addBlocks .empty (c.blocks.chromaA.map .ofPlain) =
        .ok (Model.histogram c.blocks.chromaA) ∧
      Counts.addBlocks (Model.histogram c.blocks.chromaA) (c.blocks.chromaB.map .ofPlain) =
        .ok ((Model.histogram c.blocks.chromaA).merge (Model.histogram c.blocks.chromaB)) := by
  have hword : (0x1000000000000 : Nat) < wordSize := by decide
  have hlt := c.sampleCount_lt hs
  have hluma : ∀ hop, Histogram.empty hop + (Model.hopsOf c.blocks.luma).count hop < wordSize := by
    intro hop
    have hle := (c.counts_le hop).1
    rw [Model.get_histogram] at hle
    rw [Histogram.get_empty]
    omega
  have hchroma : ∀ hop, Model.histogram c.blocks.chromaA hop +
      (Model.hopsOf c.blocks.chromaB).count hop < wordSize := by
    intro hop
    have hle := (c.counts_le hop).2
    rw [Histogram.get_merge, Model.get_histogram c.blocks.chromaB] at hle
    omega
  have ha : ∀ hop, Histogram.empty hop +
      (Model.hopsOf c.blocks.chromaA).count hop < wordSize := by
    intro hop
    have hle := hchroma hop
    rw [Model.get_histogram] at hle
    rw [Histogram.get_empty]
    omega
  refine ⟨?_, ?_, Counts.addBlocks_eq hchroma⟩
  · rw [Counts.addBlocks_eq hluma, Histogram.empty_merge]
  · rw [Counts.addBlocks_eq ha, Histogram.empty_merge]

/-- Both tables are built, and the room for the frame is computed. -/
theorem codeTables_eq :
    Counts.codeTable (Model.histogram c.blocks.luma) = .ok (.ofPlain c.lumaTable) ∧
      Counts.codeTable ((Model.histogram c.blocks.chromaA).merge
        (Model.histogram c.blocks.chromaB)) = .ok (.ofPlain c.chromaTable) := by
  have hword : (0x1000000000000 : Nat) * 9 < wordSize := by decide
  have hlt := c.sampleCount_lt hs
  obtain ⟨hluma, hchroma⟩ := c.exists_counted hs
  constructor
  · rw [Counts.codeTable_eq hluma (fun hop => (c.counts_le hop).1) (by omega)]
    have heq : (Model.histogram c.blocks.luma).codeTable = .ok c.lumaTable := c.lumaTable_eq
    rw [heq]
    rfl
  · rw [Counts.codeTable_eq hchroma (fun hop => (c.counts_le hop).2) (by omega)]
    have heq : ((Model.histogram c.blocks.chromaA).merge
        (Model.histogram c.blocks.chromaB)).codeTable = .ok c.chromaTable := c.chromaTable_eq
    rw [heq]
    rfl

theorem exists_capacity : ∃ room, Counts.capacity (.ofPlain c.lumaTable) (.ofPlain c.chromaTable)
    (Model.histogram c.blocks.luma)
    ((Model.histogram c.blocks.chromaA).merge (Model.histogram c.blocks.chromaB)) = .ok room := by
  have hword : (0x1000000000000 : Nat) * 252 + 1024 < wordSize := by decide
  have hlt := c.sampleCount_lt hs
  obtain ⟨hluma, hchroma⟩ := c.tables_sound hs
  obtain ⟨bits, hbits, hle⟩ :=
    Counts.exists_encodedBits hluma (fun hop => (c.counts_le hop).1) (by omega)
  obtain ⟨bits', hbits', hle'⟩ :=
    Counts.exists_encodedBits hchroma (fun hop => (c.counts_le hop).2) (by omega)
  have hroom := Nat.div_le_self (bits + bits') 8
  refine ⟨(bits + bits') / 8 + 1024, ?_⟩
  rw [Counts.capacity, hbits, ok_bind, hbits', ok_bind, add_eq (by omega), ok_bind,
    add_eq (by omega)]

theorem totals_eq :
    Counts.total (Model.histogram c.blocks.luma) =
        .ok (Model.histogram c.blocks.luma).total ∧
      Counts.total ((Model.histogram c.blocks.chromaA).merge
        (Model.histogram c.blocks.chromaB)) =
          .ok ((Model.histogram c.blocks.chromaA).merge
            (Model.histogram c.blocks.chromaB)).total := by
  have hword : (0x1000000000000 : Nat) * 9 < wordSize := by decide
  have hlt := c.sampleCount_lt hs
  exact ⟨Counts.total_eq (fun hop => (c.counts_le hop).1) (by omega),
    Counts.total_eq (fun hop => (c.counts_le hop).2) (by omega)⟩

/-- The bytes written are those of the coded frame. -/
theorem emit_eq {e : CodedFrame} (he : c.Yields e) :
    (Summary.ofPrologue c.prologue).emit (c.blocks.map (·.map .ofPlain)) = .ok e.bytes := by
  obtain ⟨hluma, hchroma⟩ := c.tables_sound hs
  obtain ⟨padding, hpadding, hbits⟩ := he.bits_eq
  have hprologue := Summary.appends_write (p := c.prologue) hchroma hluma
  have hall := hprologue.comp
    ((Table.appends_writeHops hluma c.covers_luma).comp
      ((Table.appends_writeHops hchroma c.covers_chroma.1).comp
        (Table.appends_writeHops hchroma c.covers_chroma.2)))
  obtain ⟨p, hp, hpacks⟩ := hall .empty [] Packer.packs_empty
  have hfinish : p.finish = .ok e.bytes := by
    refine Packer.finish_eq hpacks hpadding ?_
    rw [hbits, symbolBits]
    simp only [List.nil_append, List.append_assoc]
  simp only [← bind_assoc] at hp
  simp only [Summary.emit, ← bind_assoc]
  rw [← hfinish, ← ok_bind p Packer.finish, ← hp]
  rfl

/-- Coding the blocks of the sampled grids. -/
theorem encodeSampled_eq (hdata : Addressable f) {e : CodedFrame} (he : c.Yields e) :
    Engine.encodeSampled (.ofPredictor c.predictor) c.header (Picture.ofFrame f).planes c.sampling
      c.grids = .ok (.ofPlain e) := by
  obtain ⟨hcountL, hcountA, hcountB⟩ := c.addBlocks_eq hs
  obtain ⟨hlumaTable, hchromaTable⟩ := c.codeTables_eq hs
  obtain ⟨room, hroom⟩ := c.exists_capacity hs
  obtain ⟨hlumaHops, hchromaHops⟩ := c.totals_eq hs
  have hemit : Summary.emit ⟨c.header, c.blocks.map (·.map CodedBlock.seed),
      .ofPlain c.chromaTable, .ofPlain c.lumaTable, c.sampling⟩
        (c.blocks.map (·.map CountedBlock.ofPlain)) = .ok e.bytes := c.emit_eq hs he
  have hframe := Forecast.assemble_eq c.inRange (c.fit hs) c.predictor f
  change assemble c.header c.grids (c.blocks.map (·.map CodedBlock.pixels)) =
    lift ((c.grids.assemble c.header (c.blocks.map (·.map CodedBlock.pixels))).map _) at hframe
  rw [he.frame_eq] at hframe
  have hseeds : (c.blocks.map (·.map CountedBlock.ofPlain)).map (·.map (·.block.seed)) =
      c.blocks.map (·.map CodedBlock.seed) := by
    simp [Channels.map, CountedBlock.ofPlain]
  have hpixels : (c.blocks.map (·.map CountedBlock.ofPlain)).map (·.map (·.block.pixels)) =
      c.blocks.map (·.map CodedBlock.pixels) := by
    simp [Channels.map, CountedBlock.ofPlain]
  rw [Engine.encodeSampled, c.codePlanes_eq hs hdata, ok_bind, hseeds, hpixels]
  simp only [Channels.map] at hemit hframe ⊢
  rw [hcountL, ok_bind, hcountA, ok_bind, hcountB, ok_bind, hlumaTable, ok_bind, hchromaTable,
    ok_bind, hroom, ok_bind, hemit, ok_bind, hframe]
  simp only [Except.map, lift_ok, ok_bind, hlumaHops, hchromaHops]
  rw [Coded.ofPlain, he.header_eq, he.mesh_eq, he.lumaHops_eq, he.chromaHops_eq]
  rfl

end Coding

namespace Machine.Engine

variable {m : Model} {s : Settings} {f : Frame}

theorem headerOf_eq (s : Settings) (f : Frame) :
    headerOf s (.ofFrame f) = lift (Model.headerOf s f) := by
  have hlimit : halfSize = 1 <<< 32 := rfl
  unfold headerOf Model.headerOf
  by_cases hwidth : 1 <<< 32 ≤ f.width
  · rw [if_pos hwidth]
    exact if_pos hwidth
  by_cases hheight : 1 <<< 32 ≤ f.height
  · rw [if_neg hwidth, if_pos hheight]
    exact (if_neg hwidth).trans (if_pos hheight)
  rw [if_neg hwidth, if_neg hheight]
  refine (if_neg hwidth).trans ((if_neg hheight).trans ?_)
  let header := s.header f.chroma (UInt32.ofNat f.width) (UInt32.ofNat f.height)
  have hvalid : (Header.validate header).mapError Stop.asArgument =
      lift (header.validate.mapError Fault.asArgument) := by
    rw [Header.validate_eq, mapError_asArgument]
  change (Header.validate header).mapError Stop.asArgument >>= _ = _
  rw [hvalid, lift_bind]
  rfl

/-- The mesh of an advanced frame, given or estimated. -/
theorem mesh_eq {h : FrameHeader} (hheader : Model.headerOf s f = .ok h) {full : FrameGrids}
    (hfull : h.grids = .ok full) {p : Predictor} (hratio : RatioCovered p.ratio)
    (hdata : Addressable f) (mesh : Option RelevanceMesh) :
    mesh.elim ((Forecast.ofPredictor p).estimate (.ofPlane f.planes.luma) full.luma) pure =
      .ok (mesh.getD (Relevance.estimate p f.planes.luma full.luma)) := by
  obtain ⟨⟨hsizeW, hsizeH⟩, heq, hvalid⟩ := Model.headerOf_eq_ok_iff.mp hheader
  obtain ⟨hrange, -⟩ := (FrameHeader.validate_eq_ok_iff h).mp hvalid
  have fit := FrameHeader.fit_of_grids hfull
  have hwidth : h.width.toNat = f.planes.luma.width := by
    rw [heq]
    exact UInt32.toNat_ofNat_of_lt hsizeW
  have hheight : h.height.toNat = f.planes.luma.height := by
    rw [heq]
    exact UInt32.toNat_ofNat_of_lt hsizeH
  have htiles := fit.luma
  simp only [FrameHeader.lumaSize, hwidth, hheight] at htiles
  rcases mesh with - | given
  · have hroom := hrange.room.1
    simp only [FrameHeader.lumaSize, hwidth, hheight] at hroom
    refine Forecast.estimate_eq hratio (hwidth ▸ hrange.width_pos) (hheight ▸ hrange.height_pos)
      hroom hdata.luma htiles ?_ ?_
    · rw [fit.luma_blocks.1]
      exact hrange.blocksW_pos
    · rw [fit.luma_blocks.2]
      exact hrange.blocksH_pos
  · rfl

/-- The sampling and the sampled grids of a frame with a valid header. -/
theorem sample_eq {h : FrameHeader} (hheader : Model.headerOf s f = .ok h) {full : FrameGrids}
    (hfull : h.grids = .ok full) {p : Predictor} (hratio : RatioCovered p.ratio)
    (hdata : Addressable f) (mesh : Option RelevanceMesh) :
    (ofModel m).sample (.ofPredictor p) s (.ofFrame f) mesh full =
      lift ((m.sampledGrids f.chroma full (Model.samplingOf p s f mesh full)).map
        fun grids => (Model.samplingOf p s f mesh full, grids)) := by
  obtain ⟨-, heq, -⟩ := Model.headerOf_eq_ok_iff.mp hheader
  have hchroma : h.chroma = f.chroma := by rw [heq]; rfl
  unfold sample Model.samplingOf
  by_cases hmode : s.mode = .advanced
  · have hmode' : h.mode = .advanced := by rw [heq]; exact hmode
    let chosen := mesh.getD (Relevance.estimate p f.planes.luma full.luma)
    have hmesh : mesh.elim ((Forecast.ofPredictor p).estimate (Picture.ofFrame f).planes.luma
        full.luma) pure = .ok chosen := mesh_eq hheader hfull hratio hdata mesh
    have hgrids := sampleGrids_eq hfull hmode' m.pow ⟨s.quality, chosen⟩
    rw [hchroma] at hgrids
    rw [if_pos hmode, if_pos hmode, hmesh, ok_bind]
    change sampleGrids m.pow full f.chroma ⟨s.quality, chosen⟩ >>= _ = _
    rw [hgrids, Model.sampledGrids]
    cases full.sample m.pow f.chroma ⟨s.quality, chosen⟩ <;> rfl
  · rw [if_neg hmode, if_neg hmode]
    rfl

/-- The grids of a valid header, with faults as the encoder reports them. -/
theorem grids_eq {h : FrameHeader} (hheader : Model.headerOf s f = .ok h) {full : FrameGrids}
    (hfull : h.grids = .ok full) : (Header.grids h).mapError Stop.asArgument = .ok full := by
  obtain ⟨-, -, hvalid⟩ := Model.headerOf_eq_ok_iff.mp hheader
  obtain ⟨hrange, -⟩ := (FrameHeader.validate_eq_ok_iff h).mp hvalid
  rw [Header.grids_eq hrange, hfull]
  rfl

/-- Coding on the machine gives what the plain codec gives, and never traps. -/
theorem encodeFrame_eq (m : Model) (hs : s.validate = .ok ()) (hdata : Addressable f)
    (mesh : Option RelevanceMesh) :
    (ofModel m).encodeFrame s (.ofFrame f) mesh =
      lift ((m.encodeFrame s f mesh).map Coded.ofPlain) := by
  let p : Predictor := ⟨m.tables, s.ratio.toNat, s.prediction⟩
  have hratio : RatioCovered p.ratio := (Settings.validate_eq_ok hs).1
  have hnew : Forecast.new (ofModel m).ladders s.ratio.toNat s.prediction = .ok (.ofPredictor p) :=
    Forecast.new_eq m.tables hratio s.prediction
  rw [encodeFrame, hnew, ok_bind, headerOf_eq]
  rcases m.encodeFrame_cases hs f mesh with
    ⟨fault, hheader, hcode⟩ | ⟨h, given, hheader, hmode, rfl, hmesh, hcode⟩ | ⟨⟨c⟩⟩
  · rw [hheader, hcode]
    rfl
  · obtain ⟨-, -, hvalid⟩ := Model.headerOf_eq_ok_iff.mp hheader
    obtain ⟨-, full, hfull⟩ := (FrameHeader.validate_eq_ok_iff h).mp hvalid
    rw [hheader, hcode, lift_ok, ok_bind, grids_eq hheader hfull, ok_bind,
      sample_eq hheader hfull hratio hdata, Model.sampledGrids_mismatch hfull hmode hmesh]
    rfl
  · obtain ⟨e, hcode, he⟩ := c.exists_encodeFrame
    have hp : p = c.predictor := by
      have hpredictor := c.predictor_eq
      rw [Model.new?_of_validate m hs] at hpredictor
      exact Except.ok.inj hpredictor
    have hsampled : (ofModel m).sample (.ofPredictor c.predictor) s (.ofFrame f) mesh c.full =
        .ok (c.sampling, c.grids) := by
      rw [sample_eq c.header_eq c.full_eq (c.ratio_range hs) hdata, c.grids_eq]
      rfl
    rw [c.header_eq, hcode, lift_ok, ok_bind, grids_eq c.header_eq c.full_eq, ok_bind, hp,
      hsampled]
    exact c.encodeSampled_eq hs hdata he

theorem encode_eq (c : Codec) (hdata : Addressable f) :
    (ofModel c.model).encode c.settings (.ofFrame f) = lift ((c.encode f).map Coded.ofPlain) :=
  encodeFrame_eq c.model c.valid hdata none

theorem encodeWithMesh_eq (c : Codec) (hdata : Addressable f) (mesh : RelevanceMesh) :
    (ofModel c.model).encodeWithMesh c.settings (.ofFrame f) mesh =
      lift ((c.encodeWithMesh f mesh).map Coded.ofPlain) := by
  unfold encodeWithMesh Codec.encodeWithMesh
  by_cases hmode : c.settings.mode = .advanced
  · rw [if_neg (not_not_intro hmode), if_neg (not_not_intro hmode)]
    exact encodeFrame_eq c.model c.valid hdata (some mesh)
  · rw [if_pos hmode, if_pos hmode]
    rfl

end Machine.Engine

namespace Machine.Engine

/-- A run has a value exactly if `p` holds, and whatever else it ends in is a fault of its
arguments. -/
structure Requires {α : Type} (x : Run α) (p : Prop) : Prop where
  ok_iff : (∃ a, x = .ok a) ↔ p
  argument : ∀ stop, x = .error stop → ∃ cause, stop = .fault (.argument cause)

theorem requires_lift {α β : Type} {x : Except Fault α} {p : Prop} (hok : (∃ a, x = .ok a) ↔ p)
    (herror : ∀ fault, x = .error fault → ∃ cause, fault = .argument cause) (g : α → β) :
    Requires (lift (x.map g)) p := by
  rw [← hok]
  rcases x with fault | a
  · constructor
    · constructor
      · rintro ⟨b, h⟩
        cases h
      · rintro ⟨a, h⟩
        cases h
    · intro stop h
      cases h
      obtain ⟨cause, rfl⟩ := herror fault rfl
      exact ⟨cause, rfl⟩
  · constructor
    · exact iff_of_true ⟨g a, rfl⟩ ⟨a, rfl⟩
    · intro stop h
      cases h

/-- Coding is safe and complete: it ends as the plain codec does and never in a trap, it has a
result exactly if the header of the frame is valid and a given mesh is accepted, and otherwise it
refuses its arguments, an invalid header for the reason it is invalid. -/
theorem encode_requires_validHeader (c : Codec) {f : Frame} (hf : Addressable f)
    (mesh : RelevanceMesh) :
    (Requires ((ofModel c.model).encode c.settings (.ofFrame f)) (f.Codable c.settings) ∧
      Requires ((ofModel c.model).encodeWithMesh c.settings (.ofFrame f) mesh)
        (f.Codable c.settings ∧ c.Accepts f mesh)) ∧
    (∀ cause, f.Measurable →
      (c.settings.headerFor f).validate = .error (.header cause) →
        (ofModel c.model).encode c.settings (.ofFrame f) = refuse (.argument (.header cause)) ∧
          (c.settings.mode = .advanced →
            (ofModel c.model).encodeWithMesh c.settings (.ofFrame f) mesh =
              refuse (.argument (.header cause)))) ∧
    (ofModel c.model).encode c.settings (.ofFrame f) = lift ((c.encode f).map Coded.ofPlain) ∧
      (ofModel c.model).encodeWithMesh c.settings (.ofFrame f) mesh =
        lift ((c.encodeWithMesh f mesh).map Coded.ofPlain) := by
  have hencode := encode_eq c hf
  have hwithMesh := encodeWithMesh_eq c hf mesh
  rw [hencode, hwithMesh]
  refine ⟨⟨?_, ?_⟩, ?_, rfl, rfl⟩
  · exact requires_lift (c.exists_encode_iff f)
      (fun _ h => Model.argument_of_encodeFrame c.valid h) _
  · exact requires_lift (c.exists_encodeWithMesh_iff f mesh)
      (fun _ h => Codec.argument_of_encodeWithMesh h) _
  · intro cause hsize hinvalid
    obtain ⟨hplain, hmesh⟩ := Codec.encode_of_invalid mesh hsize hinvalid
    rw [hplain]
    refine ⟨rfl, fun hmode => ?_⟩
    rw [hmesh hmode]
    rfl

/-- A picture is coded in four blocks, alone and with a mesh of as many blocks, but not with a mesh
of another size. -/
theorem encode_requires_validHeader_fourBlocks :
    let c := Codec.fourBlocks
    Addressable .slope ∧
      (∃ coded, (ofModel c.model).encode c.settings (.ofFrame .slope) = .ok coded) ∧
        (∃ coded, (ofModel c.model).encodeWithMesh c.settings (.ofFrame .slope)
          (.uniform 2 2 .zero) = .ok coded) ∧
          ¬ ∃ coded, (ofModel c.model).encodeWithMesh c.settings (.ofFrame .slope)
            (.uniform 3 2 .zero) = .ok coded := by
  intro c
  have hf : Addressable .slope := ⟨by decide, by decide, by decide⟩
  obtain ⟨⟨hencode, hwithMesh⟩, -⟩ := encode_requires_validHeader c hf (.uniform 2 2 .zero)
  obtain ⟨⟨-, hwithOther⟩, -⟩ := encode_requires_validHeader c hf (.uniform 3 2 .zero)
  refine ⟨hf, hencode.ok_iff.mpr Codec.codable_slope,
    hwithMesh.ok_iff.mpr ⟨Codec.codable_slope, rfl, rfl, rfl⟩, fun hcoded => ?_⟩
  obtain ⟨-, -, hblocks, -⟩ := hwithOther.ok_iff.mp hcoded
  cases hblocks

end Machine.Engine

end HopCodec
