/-
Decoding on the machine.  Whatever the bytes are, the machine reads as the plain codec does: a
prologue that was read leaves every later step with blocks inside their planes, a seed for each of
them and hops enough.
-/
import HopCodec.Machine.Decoded
import HopCodec.Proofs.Frame.Received
import HopCodec.Proofs.Frame.RoundTrip
import HopCodec.Proofs.Machine.Block
import HopCodec.Proofs.Machine.Header

namespace HopCodec

open Reading

/-- As many hops were read for a block as it has samples. -/
theorem Model.sizes_of_readBlocks {t : CodeTable} {blocks : List Block} {r r' : BitReader}
    {hops : List (Array Hop)} (hread : (readBlocks t blocks).run r = .ok hops r') :
    List.Forall₂ (fun b hops => hops.size = b.sampleCount) blocks hops := by
  induction blocks generalizing r hops with
  | nil =>
      cases hread
      exact .nil
  | cons b rest ih =>
      obtain ⟨first, s, hfirst, hread⟩ := run_bind_eq_ok_iff.mp hread
      obtain ⟨others, s', hothers, hread⟩ := run_bind_eq_ok_iff.mp hread
      cases hread
      refine .cons ?_ (ih hothers)
      rw [CodeTable.readSymbols_eq] at hfirst
      obtain ⟨_, s, -, hfirst⟩ := run_bind_eq_ok_iff.mp hfirst
      obtain ⟨symbols, s', hsymbols, hfirst⟩ := run_bind_eq_ok_iff.mp hfirst
      cases hfirst
      rw [List.size_toArray]
      exact length_of_list hsymbols

/-- As many hops were read as there are samples in the blocks of all planes. -/
theorem Model.sizes_of_readHops {lumaTable chromaTable : CodeTable} {g : FrameGrids}
    {r r' : BitReader} {hops : Channels (List (Array Hop))}
    (hread : (readHops lumaTable chromaTable g).run r = .ok hops r') :
    (List.Forall₂ (fun b hops => hops.size = b.sampleCount) g.luma.blocks.toList hops.luma) ∧
      (List.Forall₂ (fun b hops => hops.size = b.sampleCount) g.chroma.blocks.toList
        hops.chromaA) ∧
      List.Forall₂ (fun b hops => hops.size = b.sampleCount) g.chroma.blocks.toList
        hops.chromaB := by
  obtain ⟨luma, s, hluma, hread⟩ := run_bind_eq_ok_iff.mp hread
  obtain ⟨chromaA, s', hchromaA, hread⟩ := run_bind_eq_ok_iff.mp hread
  obtain ⟨chromaB, s'', hchromaB, hread⟩ := run_bind_eq_ok_iff.mp hread
  cases hread
  exact ⟨sizes_of_readBlocks hluma, sizes_of_readBlocks hchromaA, sizes_of_readBlocks hchromaB⟩

/-- A decoded frame is one that was read. -/
theorem Model.readFrame_of_decodeFrame {m : Model} {data : Bytes} {d : DecodedFrame}
    (hd : m.decodeFrame data = .ok d) :
    ∃ r, m.readFrame.run (BitReader.ofBytes data) = .ok (d.header, d.frame) r := by
  obtain ⟨r, hrun, -⟩ := decodeFrame_eq_ok_iff.mp hd
  exact ⟨r, hrun⟩

/-- A frame that was read is put together from the blocks that its prologue, its seeds and its hops
describe. -/
theorem Model.hops_of_readFrame {m : Model} {h : FrameHeader} {frame : Frame}
    {r r' : BitReader} (hread : m.readFrame.run r = .ok (h, frame) r') :
    ∃ prologue g p hops s, (Prologue.read m.pow).run r = .ok (prologue, g) s ∧
      prologue.header = h ∧ Predictor.new? m.tables h.ratio.toNat h.prediction = .ok p ∧
        (readHops prologue.lumaTable prologue.chromaTable g).run s = .ok hops r' ∧
          g.assemble h ⟨rebuildBlocks p g.luma prologue.seeds.luma hops.luma,
            rebuildBlocks p g.chroma prologue.seeds.chromaA hops.chromaA,
            rebuildBlocks p g.chroma prologue.seeds.chromaB hops.chromaB⟩ = .ok frame := by
  rw [readFrame_eq_readSampled] at hread
  obtain ⟨⟨prologue, g⟩, s, hprologue, hread⟩ := run_bind_eq_ok_iff.mp hread
  obtain ⟨p, s', hpredictor, hread⟩ := run_bind_eq_ok_iff.mp hread
  obtain ⟨hp, rfl⟩ := run_lift_eq_ok_iff.mp hpredictor
  obtain ⟨r'', s'', hget, hread⟩ := run_bind_eq_ok_iff.mp hread
  cases hget
  by_cases hshort : s.remaining < g.sampleCount
  · rw [if_pos hshort] at hread
    cases hread
  rw [if_neg hshort, readSampled_eq_readHops] at hread
  obtain ⟨hops, s₁, hhops, hread⟩ := run_bind_eq_ok_iff.mp hread
  obtain ⟨frame', s₂, hassemble, hread⟩ := run_bind_eq_ok_iff.mp hread
  obtain ⟨hframe, rfl⟩ := run_lift_eq_ok_iff.mp hassemble
  cases hread
  exact ⟨prologue, g, p, hops, s, hprologue, rfl, hp, hhops, hframe⟩

/-- A frame that was read comes after its prologue and is put together from blocks. -/
theorem Model.prologue_of_readFrame {m : Model} {h : FrameHeader} {frame : Frame}
    {r r' : BitReader} (hread : m.readFrame.run r = .ok (h, frame) r') :
    ∃ prologue g pixels s, (Prologue.read m.pow).run r = .ok (prologue, g) s ∧
      prologue.header = h ∧ g.assemble h pixels = .ok frame := by
  obtain ⟨prologue, g, p, hops, s, hprologue, hheader, -, -, hframe⟩ := hops_of_readFrame hread
  exact ⟨prologue, g, _, s, hprologue, hheader, hframe⟩

/-- Chroma planes are no wider or higher than the luma plane. -/
theorem FrameHeader.InRange.modest {h : FrameHeader} (hrange : h.InRange) :
    (Machine.Modest h.lumaSize.1 ∧ Machine.Modest h.lumaSize.2) ∧
      Machine.Modest h.chromaSize.1 ∧ Machine.Modest h.chromaSize.2 := by
  obtain ⟨hfactorX, hfactorY⟩ := h.chroma.factors_pos
  exact ⟨⟨hrange.width_le, hrange.height_le⟩, Nat.le_trans (ceilDiv_le _ hfactorX) hrange.width_le,
    Nat.le_trans (ceilDiv_le _ hfactorY) hrange.height_le⟩

namespace Machine

theorem Forecast.new_eq (t : Tables) {ratio : Nat} (hratio : RatioCovered ratio)
    (prediction : Prediction) :
    Forecast.new (.ofTables t) ratio prediction =
      .ok (.ofPredictor ⟨t, ratio, prediction⟩) :=
  if_pos hratio

def Decoded.ofPlain (d : DecodedFrame) : Decoded :=
  ⟨d.header, .ofFrame d.frame, d.consumed⟩

namespace Scanner

theorem follows_remaining : Follows remaining (BitReader.remaining <$> get) := by
  constructor
  · intro c r n r' h hrun
    cases hrun
    have hleft : sub c.budget c.consumed = .ok r.remaining := h.remaining_eq
    refine ⟨c, ?_, h⟩
    simp only [remaining, StateT.run, hleft, ok_bind, pure_eq_ok]
  · intro c r fault r' h hrun
    cases hrun

end Scanner

namespace Forecast

variable {p : Predictor} (hratio : RatioCovered p.ratio)

include hratio

/-- Rebuilding the blocks of a plane that tile it, with a seed and hops for each of them. -/
theorem rebuildPlane_eq {g : BlockGrid} {width height : Nat} (hg : g.Tiles width height)
    (hwidth : Modest width) (hheight : Modest height) {seeds : List UInt8}
    (hseeds : seeds.length = g.blocks.size) {hops : List (Array Hop)}
    (hhops : List.Forall₂ (fun b hops => hops.size = b.sampleCount) g.blocks.toList hops) :
    (ofPredictor p).rebuildPlane g width height seeds hops =
      lift ((g.assemble width height (Model.rebuildBlocks p g seeds hops)).map
        Canvas.ofPlane) := by
  have hlength : hops.length = g.blocks.size := by
    rw [← hhops.length_eq, Array.length_toList]
  let rebuilt := Model.rebuildBlocks p g seeds hops
  have hcount : rebuilt.length = g.blocks.size := by
    simp [rebuilt, Model.rebuildBlocks, hseeds, hlength]
  have hblock : ∀ i, i ∈ List.range g.blocks.size →
      (ofPredictor p).rebuildAt g seeds.toArray hops.toArray i = .ok (rebuilt.getD i #[]) := by
    intro i hi
    have hi : i < g.blocks.size := List.mem_range.mp hi
    have hwithin := hg.within (Array.mem_toList_iff.mpr (Array.getElem_mem hi))
    have hsize : (hops[i]).size = g.blocks[i].sampleCount := by
      have hget := hhops.get (by rw [Array.length_toList]; exact hi) (by rw [hlength]; exact hi)
      simpa using hget
    have hentry : rebuilt.getD i #[] = p.rebuildBlock g.blocks[i] seeds[i] hops[i] := by
      simp [rebuilt, Model.rebuildBlocks, List.getD_eq_getElem?_getD, hi, hseeds, hlength]
    rw [rebuildAt, fetch_eq hi, ok_bind, fetch_eq (by simp [hseeds, hi]), ok_bind,
      fetch_eq (by simp [hlength, hi]), ok_bind, hentry]
    exact rebuildBlock_eq hratio hwithin hwidth hheight _ hsize
  have hpixels : (List.range g.blocks.size).map (fun i => rebuilt.getD i #[]) = rebuilt := by
    apply List.ext_getElem
    · simp [hcount]
    · intro i hi hi'
      simp [List.getD_eq_getElem?_getD, hi']
  rw [rebuildPlane, mapM_eq hblock, ok_bind, hpixels]
  refine Grid.assemble_eq hg hwidth hheight fun e he => ?_
  have hwithin := hg.within (List.of_mem_zip he).1
  obtain ⟨k, hk, rfl⟩ := List.mem_iff_getElem.mp he
  simp only [List.getElem_zip, rebuilt, Model.rebuildBlocks, List.getElem_map] at hwithin ⊢
  exact size_blockPixels hwithin (Predictor.size_scan _ _ _ _ _)

end Forecast

namespace Picture

/-- Planes put together on the machine make the frame that the plain planes make. -/
theorem ofPlanes_assemble (h : FrameHeader) (g : FrameGrids) (pixels : Channels (List Bytes))
    {luma chromaA chromaB : Run Canvas}
    (hluma : luma =
      lift ((g.luma.assemble h.lumaSize.1 h.lumaSize.2 pixels.luma).map Canvas.ofPlane))
    (ha : chromaA =
      lift ((g.chroma.assemble h.chromaSize.1 h.chromaSize.2 pixels.chromaA).map Canvas.ofPlane))
    (hb : chromaB =
      lift ((g.chroma.assemble h.chromaSize.1 h.chromaSize.2 pixels.chromaB).map Canvas.ofPlane)) :
    (do
      let luma ← luma
      let chromaA ← chromaA
      let chromaB ← chromaB
      ofPlanes h.chroma ⟨luma, chromaA, chromaB⟩) =
        lift ((g.assemble h pixels).map ofFrame) := by
  subst hluma ha hb
  rw [FrameGrids.assemble_eq_bind]
  rcases g.luma.assemble h.lumaSize.1 h.lumaSize.2 pixels.luma with fault | luma
  · rfl
  rcases g.chroma.assemble h.chromaSize.1 h.chromaSize.2 pixels.chromaA with fault | a
  · rfl
  rcases g.chroma.assemble h.chromaSize.1 h.chromaSize.2 pixels.chromaB with fault | b
  · rfl
  exact ofPlanes_eq h.chroma ⟨luma, a, b⟩

end Picture

namespace Forecast

variable {p : Predictor} (hratio : RatioCovered p.ratio)

include hratio

/-- Rebuilding a frame whose grids fit its header. -/
theorem rebuild_eq {h : FrameHeader} (hrange : h.InRange) {g : FrameGrids} (fit : g.Fit h)
    {seeds : Channels (List UInt8)} (hseedsL : seeds.luma.length = g.luma.blocks.size)
    (hseedsA : seeds.chromaA.length = g.chroma.blocks.size)
    (hseedsB : seeds.chromaB.length = g.chroma.blocks.size)
    {hops : Channels (List (Array Hop))}
    (hhopsL : List.Forall₂ (fun b hops => hops.size = b.sampleCount) g.luma.blocks.toList
      hops.luma)
    (hhopsA : List.Forall₂ (fun b hops => hops.size = b.sampleCount) g.chroma.blocks.toList
      hops.chromaA)
    (hhopsB : List.Forall₂ (fun b hops => hops.size = b.sampleCount) g.chroma.blocks.toList
      hops.chromaB) :
    (ofPredictor p).rebuild h g seeds hops =
      lift ((g.assemble h ⟨Model.rebuildBlocks p g.luma seeds.luma hops.luma,
        Model.rebuildBlocks p g.chroma seeds.chromaA hops.chromaA,
        Model.rebuildBlocks p g.chroma seeds.chromaB hops.chromaB⟩).map Picture.ofFrame) := by
  obtain ⟨⟨hwidth, hheight⟩, hchromaW, hchromaH⟩ := hrange.modest
  rw [rebuild, Header.chromaSize_eq, ok_bind]
  exact Picture.ofPlanes_assemble h g _
    (rebuildPlane_eq hratio fit.luma hwidth hheight hseedsL hhopsL)
    (rebuildPlane_eq hratio fit.chroma hchromaW hchromaH hseedsA hhopsA)
    (rebuildPlane_eq hratio fit.chroma hchromaW hchromaH hseedsB hhopsB)

end Forecast

namespace Engine

open Scanner

theorem follows_readBlocks {t : CodeTable} (ht : t.Sound) {blocks : List Block}
    (hcount : ∀ b ∈ blocks, b.sampleCount < wordSize) :
    Follows (readBlocks (.ofPlain t) blocks) (Model.readBlocks t blocks) := by
  induction blocks with
  | nil => exact .pure []
  | cons b rest ih =>
      refine Follows.step (sampleCount_eq (hcount b List.mem_cons_self)) ?_
      refine (Table.follows_readSymbols ht b.sampleCount).bind fun hops => ?_
      exact (ih fun b' hb' => hcount b' (List.mem_cons_of_mem b hb')).bind fun _ => .pure _

/-- The hops of all planes are read as the plain codec reads them. -/
theorem follows_readHops {lumaTable chromaTable : CodeTable} (hluma : lumaTable.Sound)
    (hchroma : chromaTable.Sound) {g : FrameGrids}
    (hcountL : ∀ b ∈ g.luma.blocks.toList, b.sampleCount < wordSize)
    (hcountC : ∀ b ∈ g.chroma.blocks.toList, b.sampleCount < wordSize) :
    Follows (readHops (.ofPlain lumaTable) (.ofPlain chromaTable) g)
      (Model.readHops lumaTable chromaTable g) :=
  (follows_readBlocks hluma hcountL).bind fun _ => (follows_readBlocks hchroma hcountC).bind
    fun _ => (follows_readBlocks hchroma hcountC).bind fun _ => .pure _

/-- After its prologue a frame is read and rebuilt as the plain codec does it. -/
theorem follows_readSampled {p : Predictor} (hratio : RatioCovered p.ratio) {prologue : Prologue}
    {g : FrameGrids} (hreceived : prologue.Received g) :
    Follows (do
      let total ← totalSamples g
      if (← remaining) < total then refuse .truncated
      let hops ← readHops (.ofPlain prologue.lumaTable) (.ofPlain prologue.chromaTable) g
      let picture ← (Forecast.ofPredictor p).rebuild prologue.header g prologue.seeds hops
      return (prologue.header, picture)) ((fun e => (e.1, Picture.ofFrame e.2)) <$> (do
        let r ← get
        if r.remaining < g.sampleCount then Reading.refuse .truncated
        Model.readSampled p prologue g)) := by
  obtain ⟨hrange, -⟩ := (FrameHeader.validate_eq_ok_iff _).mp hreceived.valid
  obtain ⟨hareaL, hareaC⟩ := hrange.area_le
  have hpixels : FrameHeader.pixelsMax < wordSize := by decide
  have hcountL : ∀ b ∈ g.luma.blocks.toList, b.sampleCount < wordSize := fun b hb =>
    Nat.lt_of_le_of_lt (Nat.le_trans (hreceived.fit.luma.within hb).sampleCount_le hareaL) hpixels
  have hcountC : ∀ b ∈ g.chroma.blocks.toList, b.sampleCount < wordSize := fun b hb =>
    Nat.lt_of_le_of_lt (Nat.le_trans (hreceived.fit.chroma.within hb).sampleCount_le hareaC) hpixels
  simp only [Model.readSampled_eq_readHops, map_bind]
  refine Follows.step (totalSamples_eq hreceived.fit hrange) ?_
  have hremaining := follows_remaining
  refine hremaining.bind_map fun r _ _ _ => ?_
  by_cases hshort : r.remaining < g.sampleCount
  · rw [if_pos hshort, if_pos hshort]
    exact .refuse _
  rw [if_neg hshort, if_neg hshort]
  simp only [map_bind, map_pure]
  refine (follows_readHops hreceived.luma_table hreceived.chroma_table hcountL hcountC).bind_run
    fun hops _ _ hread => ?_
  obtain ⟨hsizesL, hsizesA, hsizesB⟩ := Model.sizes_of_readHops hread
  have hrebuild := Forecast.rebuild_eq hratio hrange hreceived.fit hreceived.luma_seeds
    hreceived.chromaA_seeds hreceived.chromaB_seeds hsizesL hsizesA hsizesB
  have hlift := Follows.lift hrebuild
  rw [← map_lift] at hlift
  exact hlift.bind_map fun frame _ _ _ => .pure (prologue.header, Picture.ofFrame frame)

theorem follows_readFrame (m : Model) :
    Follows (readFrame (ofModel m)) ((fun e => (e.1, Picture.ofFrame e.2)) <$> m.readFrame) := by
  rw [Model.readFrame_eq_readSampled]
  simp only [map_bind]
  refine (Summary.follows_read m.pow).bind_map fun e r r' hread => ?_
  obtain ⟨prologue, g⟩ := e
  have hreceived := Prologue.received_of_read hread
  obtain ⟨hrange, -⟩ := (FrameHeader.validate_eq_ok_iff _).mp hreceived.valid
  have hratio : RatioCovered prologue.header.ratio.toNat := ⟨hrange.ratio_ge, hrange.ratio_le⟩
  let p : Predictor := ⟨m.tables, prologue.header.ratio.toNat, prologue.header.prediction⟩
  have hnew : Predictor.new? m.tables prologue.header.ratio.toNat prologue.header.prediction =
      .ok p := if_pos hratio
  have hsampled := follows_readSampled (p := p) hratio hreceived
  simp only [hnew]
  exact Follows.step (Forecast.new_eq m.tables hratio prologue.header.prediction) hsampled

variable {data : Bytes}

/-- Decoding on the machine gives what the plain codec gives, and never traps. -/
theorem decode_eq (m : Model) (h : Countable data.size) :
    (ofModel m).decode data = lift ((m.decodeFrame data).map Decoded.ofPlain) := by
  obtain ⟨c, hc, htracks⟩ := Cursor.exists_ofBytes h
  rw [decode, hc, ok_bind]
  unfold Model.decodeFrame
  rcases hrun : m.readFrame.run (BitReader.ofBytes data) with ⟨⟨header, frame⟩, r⟩ | ⟨fault, r⟩
  · obtain ⟨c', hc', htracks'⟩ := (follows_readFrame m).ok_map htracks hrun
    simp only [hc', ok_bind, mul_eq h.mul_lt, htracks'.consumed_eq]
    rfl
  · rw [(follows_readFrame m).error_map htracks hrun]
    rfl

end Engine

/-- Inspecting a frame on the machine gives what the plain codec gives, and never traps. -/
theorem Summary.inspect_eq (pow : Power) {data : Bytes} (h : Countable data.size) :
    Summary.inspect pow data =
      lift ((Prologue.inspect pow data).map fun e => (ofPrologue e.1, e.2)) := by
  obtain ⟨c, hc, htracks⟩ := Cursor.exists_ofBytes h
  rw [inspect, hc, ok_bind]
  unfold Prologue.inspect
  rcases hrun : (Prologue.read pow).run (BitReader.ofBytes data) with
    ⟨⟨prologue, g⟩, r⟩ | ⟨fault, r⟩
  · obtain ⟨c', hc', htracks'⟩ := (Summary.follows_read pow).ok_map htracks hrun
    simp only [hc', ok_bind, htracks'.consumed_eq]
    rfl
  · rw [(Summary.follows_read pow).error_map htracks hrun]
    rfl

/-- A picture has the format and the size that a header tells, and no side of it is zero. -/
structure Picture.Shows (p : Picture) (h : FrameHeader) : Prop where
  chroma_eq : p.chroma = h.chroma
  luma_size : (p.planes.luma.width, p.planes.luma.height) = h.lumaSize
  chromaA_size : (p.planes.chromaA.width, p.planes.chromaA.height) = h.chromaSize
  chromaB_size : (p.planes.chromaB.width, p.planes.chromaB.height) = h.chromaSize
  luma_pos : 0 < h.lumaSize.1 ∧ 0 < h.lumaSize.2
  chroma_pos : 0 < h.chromaSize.1 ∧ 0 < h.chromaSize.2

/-- An assembled frame shows what its header tells. -/
theorem Picture.shows_of_assemble {h : FrameHeader} (hrange : h.InRange) {g : FrameGrids}
    {pixels : Channels (List Bytes)} {frame : Frame} (hframe : g.assemble h pixels = .ok frame) :
    (ofFrame frame).Shows h := by
  obtain ⟨hchroma, hwidth, hheight⟩ := FrameGrids.shape_of_assemble hframe
  obtain ⟨hfactorX, hfactorY⟩ := h.chroma.factors_pos
  have hsize : frame.chroma.chromaSize frame.planes.luma.width frame.planes.luma.height =
      h.chromaSize := by
    change frame.chroma.chromaSize frame.width frame.height = _
    rw [hchroma, hwidth, hheight]
    rfl
  exact {
    chroma_eq := hchroma
    luma_size := Prod.ext hwidth hheight
    chromaA_size := frame.chromaA_size.trans hsize
    chromaB_size := frame.chromaB_size.trans hsize
    luma_pos := ⟨hrange.width_pos, hrange.height_pos⟩
    chroma_pos := ⟨ceilDiv_pos hrange.width_pos hfactorX, ceilDiv_pos hrange.height_pos hfactorY⟩ }

namespace Engine

/-- Decoding and inspecting are safe whatever the bytes are: they end as the plain codec does,
with a value or a fault and never in a trap, and a decoded picture shows what the header tells
that an inspection finds. -/
theorem decode_safe (m : Model) {data : Bytes} (h : Countable data.size) :
    ((∀ trap, (ofModel m).decode data ≠ .error (.trap trap)) ∧
      ∀ trap, Summary.inspect m.pow data ≠ .error (.trap trap)) ∧
    ((ofModel m).decode data = lift ((m.decodeFrame data).map Decoded.ofPlain) ∧
      Summary.inspect m.pow data =
        lift ((Prologue.inspect m.pow data).map fun e => (.ofPrologue e.1, e.2))) ∧
    ∀ d, (ofModel m).decode data = .ok d → d.picture.Shows d.header ∧
      ∃ summary bits, Summary.inspect m.pow data = .ok (summary, bits) ∧
        summary.header = d.header := by
  have hdecode := decode_eq m h
  have hinspect := Summary.inspect_eq m.pow h
  refine ⟨⟨?_, ?_⟩, ⟨hdecode, hinspect⟩, ?_⟩
  · rw [hdecode]
    exact lift_ne_trap _
  · rw [hinspect]
    exact lift_ne_trap _
  · intro d hd
    rw [hdecode] at hd
    obtain ⟨plain, hplain, rfl⟩ := lift_map_eq_ok_iff.mp hd
    obtain ⟨r, hread⟩ := Model.readFrame_of_decodeFrame hplain
    obtain ⟨prologue, g, pixels, r', hprologue, hheader, hframe⟩ := Model.prologue_of_readFrame hread
    have hreceived := Prologue.received_of_read hprologue
    obtain ⟨hrange, -⟩ := (FrameHeader.validate_eq_ok_iff _).mp hreceived.valid
    rw [hheader] at hrange
    refine ⟨Picture.shows_of_assemble hrange hframe, .ofPrologue prologue, r'.consumed, ?_, hheader⟩
    rw [hinspect, Prologue.inspect, hprologue]
    rfl

/-- Four blocks of a frame of ten by eight pixels.  Hops of the luma blocks lead up from their seeds,
and the chroma blocks are flat. -/
def fourBlockStream : Bytes :=
  #[1, 10, 0, 0, 0, 8, 0, 0, 0, 2, 2, 25] ++
    #[20, 60, 100, 140, 110, 120, 130, 140, 90, 80, 70, 60] ++
    #[255, 255, 31, 255, 255, 255, 255, 31, 255] ++ Array.replicate 15 0

/-- The stream of four blocks is decoded over even ladders. -/
theorem decode_safe_fourBlockStream :
    Countable fourBlockStream.size ∧
      ∃ d, (ofModel .even).decode fourBlockStream = .ok d ∧
        d.picture.Shows d.header := by
  have h : Countable fourBlockStream.size := by
    unfold Countable
    decide
  obtain ⟨-, ⟨hdecode, -⟩, hshows⟩ := decode_safe .even h
  have hok : (Model.even.decodeFrame fourBlockStream).isOk = true := by decide +kernel
  refine ⟨h, ?_⟩
  rcases hplain : Model.even.decodeFrame fourBlockStream with fault | plain
  · rw [hplain] at hok
    cases hok
  · have hd : (ofModel .even).decode fourBlockStream = .ok (.ofPlain plain) := by
      rw [hdecode, hplain]
      rfl
    exact ⟨.ofPlain plain, hd, (hshows _ hd).1⟩

end Engine

end Machine

end HopCodec
