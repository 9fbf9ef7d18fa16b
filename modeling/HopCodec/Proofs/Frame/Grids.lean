/-
The grids of a frame.  The luma grid tiles the luma plane and the chroma grid both chroma planes,
at full resolution and however a mesh has shaped them.
-/
import HopCodec.Proofs.Block.Grid
import HopCodec.Proofs.Frame.Header

namespace HopCodec

theorem ChromaFormat.factors_pos (f : ChromaFormat) : 0 < f.factors.1 ∧ 0 < f.factors.2 := by
  cases f <;> decide

namespace FrameGrids

/-- Both grids tile their planes with as many blocks as a header says. -/
structure Fit (g : FrameGrids) (h : FrameHeader) : Prop where
  luma : g.luma.Tiles h.lumaSize.1 h.lumaSize.2
  chroma : g.chroma.Tiles h.chromaSize.1 h.chromaSize.2
  luma_blocks : g.luma.blocksW = h.blocksW.toNat ∧ g.luma.blocksH = h.blocksH.toNat
  chroma_blocks : g.chroma.blocksW = h.blocksW.toNat ∧ g.chroma.blocksH = h.blocksH.toNat

variable {g : FrameGrids} {h : FrameHeader}

theorem Fit.size_luma (fit : g.Fit h) :
    g.luma.blocks.size = h.blocksW.toNat * h.blocksH.toNat := by
  rw [fit.luma.size_blocks, fit.luma_blocks.1, fit.luma_blocks.2]

theorem Fit.size_chroma (fit : g.Fit h) :
    g.chroma.blocks.size = h.blocksW.toNat * h.blocksH.toNat := by
  rw [fit.chroma.size_blocks, fit.chroma_blocks.1, fit.chroma_blocks.2]

end FrameGrids

namespace FrameHeader

open BlockGrid

/-- What a header's grids are made of. -/
theorem grids_eq_ok_iff {h : FrameHeader} {g : FrameGrids} :
    h.grids = .ok g ↔
      partition h.width.toNat h.height.toNat h.blocksW.toNat h.blocksH.toNat = .ok g.luma ∧
        g.luma.subsample h.chroma.factors.1 h.chroma.factors.2 = .ok g.chroma ∧
          (h.mode = .advanced →
            g.luma.requireSide sideMin = .ok () ∧ g.chroma.requireSide sideMin = .ok ()) := by
  by_cases hmode : h.mode = .advanced
  · simp only [FrameHeader.grids, bind_eq_ok_iff, pure_eq_ok_iff, hmode, if_true, true_implies]
    constructor
    · rintro ⟨luma, hluma, chroma, hchroma, ⟨⟩, hside, ⟨⟩, hside', rfl⟩
      exact ⟨hluma, hchroma, hside, hside'⟩
    · rintro ⟨hluma, hchroma, hside, hside'⟩
      exact ⟨_, hluma, _, hchroma, _, hside, _, hside', rfl⟩
  · simp only [FrameHeader.grids, bind_eq_ok_iff, pure_eq_ok_iff, hmode, if_false, false_implies,
      and_true]
    constructor
    · rintro ⟨luma, hluma, chroma, hchroma, rfl⟩
      exact ⟨hluma, hchroma⟩
    · rintro ⟨hluma, hchroma⟩
      exact ⟨_, hluma, _, hchroma, rfl⟩

/-- The grids of a header tile its planes. -/
theorem fit_of_grids {h : FrameHeader} {g : FrameGrids} (hg : h.grids = .ok g) : g.Fit h := by
  obtain ⟨hluma, hchroma, -⟩ := grids_eq_ok_iff.mp hg
  obtain ⟨hx, hy⟩ := h.chroma.factors_pos
  have htiles := tiles_partition hluma
  obtain ⟨hblocksW, hblocksH⟩ := blocks_subsample hchroma
  obtain ⟨hlumaW, hlumaH⟩ := blocks_partition hluma
  exact ⟨htiles, tiles_subsample htiles hx hy hchroma, ⟨hlumaW, hlumaH⟩,
    ⟨hblocksW.trans hlumaW, hblocksH.trans hlumaH⟩⟩

/-- A header's grids keep every sample. -/
theorem full_of_grids {h : FrameHeader} {g : FrameGrids} (hg : h.grids = .ok g) :
    g.luma.Full ∧ g.chroma.Full := by
  obtain ⟨hluma, hchroma, -⟩ := grids_eq_ok_iff.mp hg
  have hfull := full_partition hluma
  exact ⟨hfull, full_subsample hfull hchroma⟩

end FrameHeader

namespace FrameGrids

open FrameHeader BlockGrid

/-- Sampling shapes the luma grid and carries its sampling over to the chroma grid. -/
theorem sample_eq_ok_iff {pow : Power} {g g' : FrameGrids} {chroma : ChromaFormat}
    {sampling : Sampling} :
    g.sample pow chroma sampling = .ok g' ↔
      g.luma.applyMesh pow sampling.mesh sampling.quality.toNat = .ok g'.luma ∧
        g'.luma.subsample chroma.factors.1 chroma.factors.2 = .ok g'.chroma := by
  simp only [sample, bind_eq_ok_iff, pure_eq_ok_iff]
  constructor
  · rintro ⟨luma, hluma, chroma, hchroma, rfl⟩
    exact ⟨hluma, hchroma⟩
  · rintro ⟨hluma, hchroma⟩
    exact ⟨_, hluma, _, hchroma, rfl⟩

/-- Sampling the grids of an advanced header succeeds with any mesh of the right size. -/
theorem exists_sample {h : FrameHeader} {g : FrameGrids} (hg : h.grids = .ok g)
    (hmode : h.mode = .advanced) {s : Sampling}
    (hmesh : s.mesh.blocksW = g.luma.blocksW ∧ s.mesh.blocksH = g.luma.blocksH) (pow : Power) :
    ∃ g', g.sample pow h.chroma s = .ok g' ∧ g'.Fit h := by
  obtain ⟨-, hchroma, hsides⟩ := grids_eq_ok_iff.mp hg
  obtain ⟨hside, -⟩ := hsides hmode
  have fit := fit_of_grids hg
  obtain ⟨luma, hluma, htiles, hblocksW, hblocksH, hx, hy⟩ :=
    exists_applyMesh fit.luma hside hmesh pow s.quality.toNat
  have himage : luma.image h.chroma.factors.1 h.chroma.factors.2 =
      g.luma.image h.chroma.factors.1 h.chroma.factors.2 := by
    unfold image
    rw [hblocksW, hblocksH, hx, hy]
  obtain ⟨chroma, hchroma'⟩ := exists_subsample_congr himage ⟨_, hchroma⟩
  obtain ⟨hchromaW, hchromaH⟩ := blocks_subsample hchroma'
  obtain ⟨hfactorX, hfactorY⟩ := h.chroma.factors_pos
  exact ⟨⟨luma, chroma⟩, sample_eq_ok_iff.mpr ⟨hluma, hchroma'⟩, htiles,
    tiles_subsample htiles hfactorX hfactorY hchroma',
    ⟨hblocksW.trans fit.luma_blocks.1, hblocksH.trans fit.luma_blocks.2⟩,
    ⟨(hchromaW.trans hblocksW).trans fit.luma_blocks.1,
      (hchromaH.trans hblocksH).trans fit.luma_blocks.2⟩⟩

end FrameGrids

end HopCodec
