/-
Seeds in decoded frames.  In the basic modes no block drops samples, so a decoded block is the scan
of its seed and hops: the seed stands in its corner, whatever hop is sent for that pixel, and a
ladder never reconstructs zero anywhere else.
-/
import HopCodec.Proofs.Frame.Independence
import HopCodec.Proofs.Ladder.Around

namespace HopCodec

theorem Tables.one_le_build_ladder (pow : Power) (ratio step : Nat) (predicted : UInt8)
    (hop : Hop) : 1 ≤ (build pow).ladder ratio step predicted hop := by
  rw [build_ladder]
  exact Ladder.one_le_around pow ratio step predicted hop

namespace Predictor

variable {p : Predictor} {b : Block}

/-- The corner of a rebuilt block is its seed. -/
theorem getD_rebuildBlock_zero (p : Predictor)
    (hfull : b.x.samples = b.x.length ∧ b.y.samples = b.y.length)
    (hpos : 0 < b.width * b.height) (seed : UInt8) (hops : Array Hop) :
    (p.rebuildBlock b seed hops).getD 0 0 = seed := by
  rw [p.rebuildBlock_of_full hfull]
  exact p.getD_values_scan_zero _ _ _ hpos

/-- Any other pixel of a rebuilt block is a rung of a ladder. -/
theorem one_le_getD_rebuildBlock {pow : Power} (ht : p.tables = .build pow)
    (hfull : b.x.samples = b.x.length ∧ b.y.samples = b.y.length) {n : Nat} (hpos : 0 < n)
    (hn : n < b.width * b.height) (seed : UInt8) (hops : Array Hop) :
    1 ≤ (p.rebuildBlock b seed hops).getD n 0 := by
  rw [p.rebuildBlock_of_full hfull, decodeBlock, p.getD_values_scan_pos _ _ _ hpos hn, ht]
  exact Tables.one_le_build_ladder _ _ _ _ _

end Predictor

namespace BlockGrid

def IsCorner (g : BlockGrid) (x y : Nat) : Prop :=
  ∃ b ∈ g.blocks, b.x.start = x ∧ b.y.start = y

/-- A plane shows the seeds of the blocks of a grid in their corners, and no zero elsewhere. -/
structure Seeded (g : BlockGrid) (seeds : List UInt8) (plane : Plane) : Prop where
  count : seeds.length = g.blocks.size
  corner : ∀ i (hi : i < g.blocks.size),
    seeds[i]? = some (plane.get g.blocks[i].x.start g.blocks[i].y.start)
  elsewhere : ∀ x < plane.width, ∀ y < plane.height, ¬ g.IsCorner x y → 1 ≤ plane.get x y

/-- Rebuilding the blocks of a full grid seeds its plane. -/
theorem seeded_rebuildBlocks {g : BlockGrid} (hfull : g.Full) {p : Predictor} {pow : Power}
    (ht : p.tables = .build pow) {seeds : List UInt8} {hops : List (Array Hop)} {plane : Plane}
    (hseeds : seeds.length = g.blocks.size)
    (hmosaic : Mosaic plane g (Model.rebuildBlocks p g seeds hops)) : g.Seeded seeds plane := by
  have hlength : (Model.rebuildBlocks p g seeds hops).length = g.blocks.size := by
    simpa using hmosaic.sizes.length_eq.symm
  have hhops : g.blocks.size ≤ hops.length := by
    simp only [Model.rebuildBlocks, List.length_map, List.length_zip,
      Array.length_toList] at hlength
    omega
  have hshown (i x y : Nat) (hi : i < g.blocks.size) (hcovers : g.blocks[i].Covers x y) :
      plane.get x y = (p.rebuildBlock g.blocks[i] seeds[i] hops[i]).getD
        ((y - g.blocks[i].y.start) * g.blocks[i].width + (x - g.blocks[i].x.start)) 0 := by
    rw [hmosaic.shown i hi (hlength ▸ hi) x y hcovers]
    simp [pixelAt, Model.rebuildBlocks]
  refine ⟨hseeds, fun i hi => ?_, fun x hx y hy hout => ?_⟩
  · obtain ⟨hwide, hhigh⟩ := hmosaic.covering.block_pos _ (Array.getElem_mem hi)
    have hcorner : g.blocks[i].Covers g.blocks[i].x.start g.blocks[i].y.start :=
      ⟨⟨Nat.le_refl _, Nat.lt_of_sub_pos hwide⟩, Nat.le_refl _, Nat.lt_of_sub_pos hhigh⟩
    rw [hshown i _ _ hi hcorner, Nat.sub_self, Nat.sub_self, Nat.zero_mul,
      p.getD_rebuildBlock_zero (hfull _ (Array.getElem_mem hi)) (Nat.mul_pos hwide hhigh)]
    exact List.getElem?_eq_getElem (hseeds ▸ hi)
  · obtain ⟨i, ⟨hi, hcovers⟩, -⟩ := hmosaic.covering.pixel x hx y hy
    obtain ⟨⟨hleft, hright⟩, htop, hbottom⟩ := hcovers
    rw [hshown i x y hi ⟨⟨hleft, hright⟩, htop, hbottom⟩]
    have hcolumn : x - g.blocks[i].x.start < g.blocks[i].width := Nat.sub_lt_sub_right hleft hright
    have hrow : y - g.blocks[i].y.start < g.blocks[i].height := Nat.sub_lt_sub_right htop hbottom
    refine Predictor.one_le_getD_rebuildBlock ht (hfull _ (Array.getElem_mem hi)) ?_
      (raster_index hcolumn hrow).1 _ _
    -- A pixel at place zero of its block would be the corner.
    rw [Nat.pos_iff_ne_zero]
    intro hzero
    have hwide : g.blocks[i].width ≠ 0 := by omega
    rw [Nat.add_eq_zero_iff, Nat.mul_eq_zero, or_iff_left hwide] at hzero
    exact hout ⟨_, Array.getElem_mem hi, by omega, by omega⟩

end BlockGrid

/-- Each plane of a mosaic is one. -/
theorem FrameGrids.Mosaic.get {frame : Frame} {g : FrameGrids} {pixels : Channels (List Bytes)}
    (h : FrameGrids.Mosaic frame g pixels) (k : Channel) :
    BlockGrid.Mosaic (frame.planes.get k) (g.channels.get k) (pixels.get k) := by
  cases k
  · exact h.luma
  · exact h.chromaA
  · exact h.chromaB

/-- Without a mesh the grids of a prologue are those of its header. -/
theorem Prologue.grids_of_basic {pow : Power} {p : Prologue}
    (hsampling : SamplingFits p.header p.sampling) (hmode : p.header.mode ≠ .advanced) :
    p.grids pow = p.header.grids := by
  unfold grids
  cases hs : p.sampling with
  | some s =>
      rw [hs] at hsampling
      exact absurd hsampling.1 hmode
  | none => cases p.header.grids <;> rfl

namespace Codec

/-- Decoded frames of the basic modes honour their seeds.  Whatever stream is decoded, and whatever
hop it has first for a block, the seeds that are found in its prologue stand in the top left corners
of the blocks of their channels, in order, and no pixel elsewhere is zero. -/
theorem decode_seeded (c : Codec) {pow : Power} (ht : c.model.tables = .build pow) {data : Bytes}
    {d : DecodedFrame} (hd : c.decode data = .ok d) (hmode : d.header.mode ≠ .advanced) :
    ∃ p n g, Prologue.inspect c.model.pow data = .ok (p, n) ∧ p.header = d.header ∧
      d.header.grids = .ok g ∧
      ∀ k, (g.channels.get k).Seeded (p.seeds.get k) (d.frame.planes.get k) := by
  obtain ⟨p, g, predictor, hops, r, r', hprologue, hheader, hpredictor, -, hmosaic⟩ :=
    Model.mosaic_of_decodeFrame hd
  have hreceived := Prologue.received_of_read hprologue
  have hgrids : p.header.grids = .ok g := by
    obtain ⟨-, -, -, -, -, -, -, -, -, -, -, -, -, -, -, hgrids⟩ := Prologue.parts_of_read hprologue
    rwa [Prologue.grids_of_basic hreceived.sampling (hheader ▸ hmode)] at hgrids
  refine ⟨p, _, g, Prologue.inspect_eq_ok_iff.mpr ⟨g, r, hprologue, rfl⟩, hheader,
    hheader ▸ hgrids, fun k => ?_⟩
  obtain ⟨hluma, hchroma⟩ := FrameHeader.full_of_grids hgrids
  have hfull : (g.channels.get k).Full := by
    cases k
    · exact hluma
    · exact hchroma
    · exact hchroma
  have hseeds : (p.seeds.get k).length = (g.channels.get k).blocks.size :=
    (hreceived.length_seeds k).trans (hreceived.fit.size_blocks k).symm
  have hplane : BlockGrid.Mosaic (d.frame.planes.get k) (g.channels.get k)
      (Model.rebuildBlocks predictor (g.channels.get k) (p.seeds.get k) (hops.get k)) := by
    rw [← Model.get_rebuilt]
    exact hmosaic.get k
  have htables : predictor.tables = c.model.tables := by
    rw [Predictor.eq_of_new? hpredictor]
  exact BlockGrid.seeded_rebuildBlocks hfull (htables.trans ht) hseeds hplane

/-- Four pixels in two blocks, with a zero that is not a seed. -/
theorem decode_seeded_twoBlocks :
    ∃ e d p n g, twoBlocks.encode (.ofRow #[0, 0, 10, 77]) = .ok e ∧
      twoBlocks.decode e.bytes = .ok d ∧ d.header.mode ≠ .advanced ∧
      Prologue.inspect Model.standard.pow e.bytes = .ok (p, n) ∧ d.header.grids = .ok g ∧
      ∀ k, (g.channels.get k).Seeded (p.seeds.get k) (d.frame.planes.get k) := by
  have hheader : Model.headerOf twoBlocks.settings (.ofRow #[0, 0, 10, 77]) =
      .ok (twoBlocks.settings.header .yuv444 4 1) :=
    Model.headerOf_eq_ok_iff.mpr ⟨by decide, rfl, by decide +kernel⟩
  obtain ⟨coding⟩ :
      Nonempty (Coding twoBlocks.model twoBlocks.settings (.ofRow #[0, 0, 10, 77]) none) :=
    Model.exists_coding twoBlocks.model twoBlocks.valid hheader fun h => by cases h
  obtain ⟨e, he, -⟩ := coding.exists_encodeFrame
  obtain ⟨n, hd⟩ := decode_of_encodeFrame twoBlocks.valid he
  have hmode : e.header.mode ≠ .advanced := by
    rw [(coding.yields he).header_eq, coding.header_mode]
    decide
  obtain ⟨p, bits, g, hinspect, -, hgrids, hseeded⟩ := decode_seeded twoBlocks rfl hd hmode
  exact ⟨e, _, p, bits, g, he, hd, hmode, hinspect, hgrids, hseeded⟩

end Codec

end HopCodec
