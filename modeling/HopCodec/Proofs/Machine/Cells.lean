/-
Cells share out the pixels of a block.  The ideal place of a boundary may be anything at all: it is
moved behind the boundary before it and then back to where a pixel is left for each cell to come,
and the second move never undoes the first.  So the cells of every block lie side by side, and the
mean of each of them is taken over one pixel at least.
-/
import HopCodec.Proofs.Frame.Fitting
import HopCodec.Proofs.Machine.Block

namespace HopCodec

namespace BlockGrid

/-- The grids that the planes of a frame are worked on with: cut evenly out of a plane, carried over
to a subsampled one, or shaped by a mesh. -/
inductive Made (pow : Power) : BlockGrid → Nat → Nat → Prop
  | cut {g : BlockGrid} {width height blocksW blocksH : Nat}
      (hg : partition width height blocksW blocksH = .ok g) : Made pow g width height
  | subsampled {g g' : BlockGrid} {width height factorX factorY : Nat} (h : Made pow g width height)
      (hfactorX : 0 < factorX) (hfactorY : 0 < factorY)
      (hg : g.subsample factorX factorY = .ok g') :
      Made pow g' (ceilDiv width factorX) (ceilDiv height factorY)
  | shaped {g g' : BlockGrid} {width height quality : Nat} {mesh : RelevanceMesh}
      (h : Made pow g width height) (hg : g.applyMesh pow mesh quality = .ok g') :
      Made pow g' width height

theorem Made.tiles {pow : Power} {g : BlockGrid} {width height : Nat}
    (h : g.Made pow width height) : g.Tiles width height := by
  induction h with
  | cut hg => exact tiles_partition hg
  | subsampled h hfactorX hfactorY hg ih => exact tiles_subsample ih hfactorX hfactorY hg
  | shaped h hg ih => exact tiles_applyMesh ih hg

end BlockGrid

namespace FrameGrids

structure Made (pow : Power) (g : FrameGrids) (h : FrameHeader) : Prop where
  luma : g.luma.Made pow h.lumaSize.1 h.lumaSize.2
  chroma : g.chroma.Made pow h.chromaSize.1 h.chromaSize.2

variable {pow : Power} {h : FrameHeader} {g g' : FrameGrids}

theorem made_of_grids (hg : h.grids = .ok g) : g.Made pow h := by
  obtain ⟨hluma, hchroma, -⟩ := FrameHeader.grids_eq_ok_iff.mp hg
  obtain ⟨hfactorX, hfactorY⟩ := h.chroma.factors_pos
  exact ⟨.cut hluma, .subsampled (.cut hluma) hfactorX hfactorY hchroma⟩

theorem Made.sample (hg : g.Made pow h) {s : Sampling} (hs : g.sample pow h.chroma s = .ok g') :
    g'.Made pow h := by
  obtain ⟨hluma, hchroma⟩ := sample_eq_ok_iff.mp hs
  obtain ⟨hfactorX, hfactorY⟩ := h.chroma.factors_pos
  exact ⟨.shaped hg.luma hluma, .subsampled (.shaped hg.luma hluma) hfactorX hfactorY hchroma⟩

end FrameGrids

/-- The sample in a column and a row is the mean of the cell there. -/
theorem BlockCells.getElem?_downsample (c : BlockCells) (src : Bytes) (stride : Nat) {i j : Nat}
    (hi : i < c.columns) (hj : j < c.rows) :
    (c.downsample src stride)[j * c.columns + i]? = some (cellMean src stride (c.x.getD i 0)
      (c.x.getD (i + 1) 0) (c.y.getD j 0) (c.y.getD (j + 1) 0)) := by
  obtain ⟨hlt, hmod, hdiv⟩ := raster_index hi hj
  rw [downsample, Array.getElem?_ofFn, dif_pos hlt]
  simp only [hmod, hdiv, getD_toArray]

namespace Machine

open Forecast (cellsOf)

namespace Cells

def Holds (c : Cells) (cell : Nat × Nat) (x y : Nat) : Prop :=
  (c.x.getD cell.1 0 ≤ x ∧ x < c.x.getD (cell.1 + 1) 0) ∧
    c.y.getD cell.2 0 ≤ y ∧ y < c.y.getD (cell.2 + 1) 0

/-- Cells that cut the sides of a block into a piece per sample, so that each of its pixels lies in
exactly one of them. -/
structure Share (c : Cells) (b : Block) : Prop where
  x : Cuts c.x b.width b.x.samples
  y : Cuts c.y b.height b.y.samples
  pixel : ∀ x < b.width, ∀ y < b.height,
    ∃! cell : Nat × Nat, (cell.1 < b.x.samples ∧ cell.2 < b.y.samples) ∧ c.Holds cell x y

theorem share_of_cuts {c : Cells} {b : Block} (hx : Cuts c.x b.width b.x.samples)
    (hy : Cuts c.y b.height b.y.samples) : c.Share b where
  x := hx
  y := hy
  pixel := by
    intro x hx' y hy'
    obtain ⟨i, hi, hcolumn⟩ := hx.exists_piece hx'
    obtain ⟨j, hj, hrow⟩ := hy.exists_piece hy'
    refine ⟨(i, j), ⟨⟨hi, hj⟩, hcolumn, hrow⟩, ?_⟩
    rintro ⟨i', j'⟩ ⟨⟨hi', hj'⟩, hcolumn', hrow'⟩
    exact Prod.ext (hx.piece_unique hi' hi hcolumn' hcolumn) (hy.piece_unique hj' hj hrow' hrow)

end Cells

section Share

variable {b : Block} {width height : Nat} (hb : b.Within width height)

include hb

theorem share_cellsOf : (cellsOf b).Share b :=
  Cells.share_of_cuts (cuts_cells hb.x .horizontal) (cuts_cells hb.y .vertical)

/-- Every sample of a downsampled block is the mean of its cell. -/
theorem downsample_cells (hwidth : Modest width) (hheight : Modest height) {src dst : Bytes}
    {stride : Nat} (hsrc : src.size < wordSize)
    (hfits : ∀ y < b.height, y * stride + b.width ≤ src.size) (hdst : dst.size = b.sampleCount) :
    ∃ means, downsample (cellsOf b) src stride dst = .ok means ∧ means.size = b.sampleCount ∧
      ∀ i < b.x.samples, ∀ j < b.y.samples,
        means[j * b.x.samples + i]? = some (HopCodec.cellMean src stride
          ((cellsOf b).x.getD i 0) ((cellsOf b).x.getD (i + 1) 0)
          ((cellsOf b).y.getD j 0) ((cellsOf b).y.getD (j + 1) 0)) := by
  have hcolumns := Cells.plain_columns (c := cellsOf b) (share_cellsOf hb).x
  have hrows := Cells.plain_rows (c := cellsOf b) (share_cellsOf hb).y
  refine ⟨_, downsample_eq (c := cellsOf b) (share_cellsOf hb).x (share_cellsOf hb).y
    (Nat.le_trans hb.x.length_le hwidth) (Nat.le_trans hb.y.length_le hheight) hb.x.samples_le
    hb.y.samples_le hsrc hfits hdst, Forecast.size_downsample hb src stride, ?_⟩
  intro i hi j hj
  have hsample := (cellsOf b).plain.getElem?_downsample src stride (hcolumns ▸ hi) (hrows ▸ hj)
  rw [hcolumns] at hsample
  simpa only [Cells.plain, ← getD_toArray] using hsample

end Share

/-- Whatever densities it is given, a side is cut into as many cells as it has samples, as long as
their boundaries can be counted in a word, and into single pixels if it keeps them all.  So the
cells of every block share out its pixels, and downsampling it takes the mean of each cell. -/
theorem cells_partition :
    (∀ (len side : Nat) (first last : Float32), 1 ≤ side → side ≤ len → len < wordSize →
      side + 1 < wordSize →
        ∃ bounds, elasticCells len side first last = .ok bounds ∧ Cuts bounds len side ∧
          (side = len → bounds = Array.range (len + 1))) ∧
    (∀ (pow : Power) (g : BlockGrid) (width height : Nat), g.Made pow width height →
      Modest width → Modest height → ∀ b ∈ g.blocks,
        ∃ cells, Cells.ofBlock b = .ok cells ∧ cells.Share b ∧
          ∀ (src dst : Bytes) (stride : Nat), src.size < wordSize →
            (∀ y < b.height, y * stride + b.width ≤ src.size) → dst.size = b.sampleCount →
              ∃ means, downsample cells src stride dst = .ok means ∧
                means.size = b.sampleCount ∧ ∀ i < b.x.samples, ∀ j < b.y.samples,
                  means[j * b.x.samples + i]? = some (HopCodec.cellMean src stride
                    (cells.x.getD i 0) (cells.x.getD (i + 1) 0)
                    (cells.y.getD j 0) (cells.y.getD (j + 1) 0))) := by
  constructor
  · intro len side first last hpos hle hlen hside
    have hcuts := cuts_elasticCells hpos hle first last
    refine ⟨_, elasticCells_eq hpos hle hlen hside first last, hcuts, ?_⟩
    rintro rfl
    exact hcuts.eq_range
  · intro pow g width height hg hwidth hheight b hmem
    have hb := hg.tiles.within (Array.mem_toList_iff.mpr hmem)
    exact ⟨_, Forecast.ofBlock_cellsOf hb hwidth hheight, share_cellsOf hb,
      fun src dst stride => downsample_cells hb hwidth hheight⟩

/-- Densities that are no numbers, and the luma plane of an advanced frame of four by four pixels
that is as irrelevant as can be. -/
theorem cells_partition_irrelevant :
    (∃ bounds, elasticCells 7 3 (0.0 / 0.0) (-1.0) = .ok bounds ∧ Cuts bounds 7 3) ∧
      elasticCells 4 4 (0.0 / 0.0) (1.0 / 0.0) = .ok (Array.range 5) ∧
        ∃ g : FrameGrids, g.Made (fun _ _ => 1.0) ⟨.advanced, .yuv444, 4, 4, 1, 1, 25, .average⟩ ∧
          g.luma.blocks.size = 1 ∧ ∀ b ∈ g.luma.blocks,
            ∃ cells means, Cells.ofBlock b = .ok cells ∧ cells.Share b ∧
              downsample cells (Array.replicate 16 7) 4 (Array.replicate b.sampleCount 0) =
                .ok means := by
  obtain ⟨bounds, hbounds, hcuts, -⟩ :=
    cells_partition.1 7 3 (0.0 / 0.0) (-1.0) (by decide) (by decide) (by decide) (by decide)
  obtain ⟨pixels, hpixels, -, hrange⟩ :=
    cells_partition.1 4 4 (0.0 / 0.0) (1.0 / 0.0) (by decide) (by decide) (by decide) (by decide)
  let h : FrameHeader := ⟨.advanced, .yuv444, 4, 4, 1, 1, 25, .average⟩
  have hmodest : Modest 4 := show 4 ≤ FrameHeader.dimensionMax by decide
  obtain ⟨full, hfull⟩ : ∃ full, h.grids = .ok full :=
    (FrameHeader.exists_grids_iff (by decide) (by decide)).mpr (by decide)
  have hblocks := (FrameHeader.fit_of_grids hfull).luma_blocks
  obtain ⟨g, hg, hfit⟩ := FrameGrids.exists_sample hfull rfl
    (s := ⟨50, .uniform 1 1 .zero⟩) ⟨hblocks.1.symm, hblocks.2.symm⟩ fun _ _ => 1.0
  have hmade := (FrameGrids.made_of_grids hfull).sample hg
  refine ⟨⟨bounds, hbounds, hcuts⟩, hrange rfl ▸ hpixels, g, hmade, hfit.size_luma, ?_⟩
  intro b hb
  obtain ⟨cells, hcells, hshare, hmeans⟩ :=
    cells_partition.2 (fun _ _ => 1.0) g.luma 4 4 hmade.luma hmodest hmodest b hb
  have hwithin : b.Within 4 4 := hfit.luma.within (Array.mem_toList_iff.mpr hb)
  have hwidth : b.width ≤ 4 := hwithin.x.length_le
  have hheight : b.height ≤ 4 := hwithin.y.length_le
  obtain ⟨means, hdownsample, -⟩ := hmeans (Array.replicate 16 7)
    (Array.replicate b.sampleCount 0) 4 (by rw [Array.size_replicate]; decide)
    (by
      intro y hy
      rw [Array.size_replicate]
      omega)
    Array.size_replicate
  exact ⟨cells, means, hcells, hshare, hdownsample⟩

end Machine

end HopCodec
