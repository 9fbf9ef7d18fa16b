/-
Two samplings of one frame.  If neither the quality nor any level of the mesh is higher in the first
of them, no block of any channel has more samples in the first of them.
-/
import HopCodec.Proofs.Block.Density
import HopCodec.Proofs.Block.Factor
import HopCodec.Proofs.Frame.Channel
import HopCodec.Proofs.Frame.Prologue

namespace HopCodec

open Single

/-- No corner of a mesh is more relevant than the same corner of another mesh. -/
def RelevanceMesh.AtMost (m m' : RelevanceMesh) : Prop :=
  ∀ column ≤ m.blocksW, ∀ row ≤ m.blocksH, (m.get column row).AtMost (m'.get column row)

instance (m m' : RelevanceMesh) : Decidable (m.AtMost m') :=
  inferInstanceAs (Decidable (∀ column ≤ m.blocksW, ∀ row ≤ m.blocksH, _))

theorem RelevanceMesh.AtMost.blockCorners {m m' : RelevanceMesh} (h : m.AtMost m')
    {column row : ℕ} (hcolumn : column < m.blocksW) (hrow : row < m.blocksH) :
    Corners.Related RelevanceCorner.AtMost (m.blockCorners column row)
      (m'.blockCorners column row) :=
  ⟨h _ hcolumn.le _ hrow.le, h _ hcolumn _ hrow.le, h _ hcolumn.le _ hrow, h _ hcolumn _ hrow⟩

namespace BlockGrid

/-- A grid sampled twice, in no block finer the first time. -/
def Coarser (g g' : BlockGrid) : Prop :=
  List.Forall₂ Block.Coarser g.blocks.toList g'.blocks.toList

variable {g g' : BlockGrid}

theorem coarser_iff : g.Coarser g' ↔ g.blocks.size = g'.blocks.size ∧
    ∀ i (h : i < g.blocks.size) (h' : i < g'.blocks.size), g.blocks[i].Coarser g'.blocks[i] :=
  List.forall₂_iff_get

theorem Coarser.sampleCount_le (h : g.Coarser g') : g.sampleCount ≤ g'.sampleCount := by
  rw [sampleCount_eq_sum, sampleCount_eq_sum]
  refine List.Forall₂.sum_le_sum ?_
  rw [List.forall₂_map_left_iff, List.forall₂_map_right_iff]
  exact List.Forall₂.imp (fun _ _ => Block.Coarser.sampleCount_le) h

/-- A mesh with no level above that of another, under a factor not above, shapes no block finer. -/
theorem coarser_applyMesh {full : BlockGrid} {width height : ℕ} (h : full.Tiles width height)
    (hwidth : width < 2 ^ 24) (hheight : height < 2 ^ 24) {pow : Power} {quality quality' : ℕ}
    {f f' : ℚ} (hfactor : Bounded (compressionFactor pow quality) f 10)
    (hfactor' : Bounded (compressionFactor pow quality') f' 10) (hff' : f ≤ f')
    {mesh mesh' : RelevanceMesh} (hmesh : mesh.AtMost mesh')
    (hg : full.applyMesh pow mesh quality = .ok g)
    (hg' : full.applyMesh pow mesh' quality' = .ok g') : g.Coarser g' := by
  obtain ⟨hfits, hside, rfl⟩ := applyMesh_eq_ok_iff.mp hg
  obtain ⟨-, -, rfl⟩ := applyMesh_eq_ok_iff.mp hg'
  refine coarser_iff.mpr ⟨by simp [mapBlocks], fun i hi _ => ?_⟩
  have hlt : i < full.blocks.size := by simpa [mapBlocks] using hi
  have hwithin := h.within (Array.mem_toList_iff.mpr (Array.getElem_mem hlt))
  have hcolumn : i % full.blocksW < mesh.blocksW := (h.column_lt hlt).trans_eq hfits.1.symm
  have hrow : i / full.blocksW < mesh.blocksH := (h.row_lt hlt).trans_eq hfits.2.symm
  simp only [mapBlocks, Array.getElem_mapIdx]
  exact Block.coarser_shape (requireSide_eq_ok_iff.mp hside _ (Array.getElem_mem hlt))
    (hwithin.x.length_le.trans_lt hwidth) (hwithin.y.length_le.trans_lt hheight) hfactor hfactor'
    hff' (hmesh.blockCorners hcolumn hrow)

/-- Subsampling carries both samplings over to the smaller plane, on which no block is too small
either. -/
theorem Coarser.subsample {full image s s' : BlockGrid} {factorX factorY : ℕ} (h : g.Coarser g')
    (halike : full.CutAlike g) (halike' : full.CutAlike g')
    (hsize : full.blocks.size = g.blocks.size)
    (himage : full.subsample factorX factorY = .ok image)
    (hside : image.requireSide sideMin = .ok ()) (hs : g.subsample factorX factorY = .ok s)
    (hs' : g'.subsample factorX factorY = .ok s') : s.Coarser s' := by
  obtain ⟨i, hi, rfl⟩ := subsample_eq_ok_iff.mp himage
  obtain ⟨k, hk, rfl⟩ := subsample_eq_ok_iff.mp hs
  obtain ⟨k', hk', rfl⟩ := subsample_eq_ok_iff.mp hs'
  rw [halike.image_eq, hi] at hk
  rw [halike'.image_eq, hi] at hk'
  obtain rfl := Except.ok.inj hk
  obtain rfl := Except.ok.inj hk'
  obtain ⟨hsize', hblocks⟩ := coarser_iff.mp h
  refine coarser_iff.mpr ⟨by simp [hsize'], fun n hn hn' => ?_⟩
  have hlt : n < i.blocks.size ∧ n < g.blocks.size := by simpa using hn
  have hlt' : n < i.blocks.size ∧ n < g'.blocks.size := by simpa using hn'
  have hsmall := requireSide_eq_ok_iff.mp hside
    ⟨subsampleAxis i.blocks[n].x full.blocks[n].x factorX,
      subsampleAxis i.blocks[n].y full.blocks[n].y factorY⟩
    (Array.mem_iff_getElem.mpr ⟨n, by simp; omega, by simp⟩)
  obtain ⟨hfullX, hfullY⟩ := full_ofBounds hi _ (Array.getElem_mem hlt.1)
  have hblock := hblocks n hlt.2 hlt'.2
  simp only [Array.getElem_zipWith]
  exact ⟨hblock.x.subsample hfullX hsmall.1 factorX, hblock.y.subsample hfullY hsmall.2 factorY⟩

end BlockGrid

namespace FrameGrids

/-- Neither quality nor relevance costs samples.  On the grids of any advanced header, with any
quality and mesh that fit it, every block of every channel keeps between two samples a side and one
for each pixel, and no fewer with a higher quality and higher levels. -/
theorem sample_coarser {pow : Power} (hpow : pow.Rises) {h : FrameHeader}
    (hvalid : h.validate = .ok ()) {s s' : Sampling} (hfits : Prologue.SamplingFits h (some s))
    (hfits' : Prologue.SamplingFits h (some s')) (hquality : s.quality ≤ s'.quality)
    (hmesh : s.mesh.AtMost s'.mesh) :
    ∃ full g g', h.grids = .ok full ∧ full.sample pow h.chroma s = .ok g ∧
      full.sample pow h.chroma s' = .ok g' ∧ g.Fit h ∧ g'.Fit h ∧
        ∀ k : Channel, (g.channels.get k).Coarser (g'.channels.get k) ∧
          (g.channels.get k).sampleCount ≤ (g'.channels.get k).sampleCount := by
  obtain ⟨hrange, full, hfull⟩ := h.validate_eq_ok_iff.mp hvalid
  obtain ⟨hmode, -, hsize⟩ := hfits
  obtain ⟨-, hmax, hsize'⟩ := hfits'
  have fit := FrameHeader.fit_of_grids hfull
  obtain ⟨-, himage, hsides⟩ := FrameHeader.grids_eq_ok_iff.mp hfull
  obtain ⟨hblocksW, hblocksH⟩ := fit.luma_blocks
  obtain ⟨g, hg, hgfit⟩ := exists_sample hfull hmode
    ⟨hsize.1.trans hblocksW.symm, hsize.2.trans hblocksH.symm⟩ pow
  obtain ⟨g', hg', hgfit'⟩ := exists_sample hfull hmode
    ⟨hsize'.1.trans hblocksW.symm, hsize'.2.trans hblocksH.symm⟩ pow
  obtain ⟨hluma, hchroma⟩ := sample_eq_ok_iff.mp hg
  obtain ⟨hluma', hchroma'⟩ := sample_eq_ok_iff.mp hg'
  obtain ⟨f, f', hfactor, hfactor', hff'⟩ := hpow.exists_bounded
    (UInt8.le_iff_toNat_le.mp hquality) (UInt8.le_iff_toNat_le.mp hmax)
  have hsmall : FrameHeader.dimensionMax < 2 ^ 24 := by decide
  have hlumas : g.luma.Coarser g'.luma := BlockGrid.coarser_applyMesh fit.luma
    (hrange.width_le.trans_lt hsmall) (hrange.height_le.trans_lt hsmall) hfactor hfactor' hff' hmesh
    hluma hluma'
  have hchromas : g.chroma.Coarser g'.chroma := hlumas.subsample
    (BlockGrid.cutAlike_applyMesh hluma) (BlockGrid.cutAlike_applyMesh hluma')
    (fit.size_luma.trans hgfit.size_luma.symm) himage (hsides hmode).2 hchroma hchroma'
  refine ⟨full, g, g', hfull, hg, hg', hgfit, hgfit', fun k => ?_⟩
  cases k
  · exact ⟨hlumas, hlumas.sampleCount_le⟩
  · exact ⟨hchromas, hchromas.sampleCount_le⟩
  · exact ⟨hchromas, hchromas.sampleCount_le⟩

end FrameGrids

namespace FrameGrids

/-- Two blocks of four by eight pixels, with subsampled chroma, a mesh that rises to the right and
a uniform one of the top level. -/
theorem sample_coarser_twoBlocks :
    let h : FrameHeader := ({ mode := .advanced, blocksW := 2, blocksH := 1 } : Settings).header
      .yuv420 8 8
    let s : Sampling := ⟨50, .ofFn 2 1 fun x _ => if x = 0 then ⟨⟨1⟩, ⟨2⟩⟩ else ⟨⟨3⟩, ⟨4⟩⟩⟩
    let s' : Sampling := ⟨90, .uniform 2 1 .top⟩
    Power.Rises Codec.wholePower ∧ h.validate = .ok () ∧ s.quality ≤ s'.quality ∧
      s.mesh.AtMost s'.mesh ∧
        ∃ full g g', h.grids = .ok full ∧ full.sample Codec.wholePower h.chroma s = .ok g ∧
          full.sample Codec.wholePower h.chroma s' = .ok g' ∧
            ∀ k : Channel, (g.channels.get k).sampleCount ≤ (g'.channels.get k).sampleCount := by
  intro h s s'
  have hvalid : h.validate = .ok () := by decide +kernel
  have hquality : s.quality ≤ s'.quality := by decide
  have hmesh : s.mesh.AtMost s'.mesh := by decide +kernel
  obtain ⟨full, g, g', hfull, hg, hg', -, -, hcoarser⟩ :=
    sample_coarser rises_wholePower hvalid ⟨rfl, by decide, rfl, rfl⟩ ⟨rfl, by decide, rfl, rfl⟩
      hquality hmesh
  exact ⟨rises_wholePower, hvalid, hquality, hmesh, full, g, g', hfull, hg, hg',
    fun k => (hcoarser k).2⟩

end FrameGrids

end HopCodec
