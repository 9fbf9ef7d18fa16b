/-
Fitting a grid to a frame.  The coder looks at each axis of the frame alone and asks whether all
pieces of the axis, and their images on a subsampled plane, are long enough; a header is judged by
the blocks of its two grids.  Both come down to how far neighbouring boundaries are apart, so the
fitted grid is the largest one, up to the requested one, whose header is valid.
-/
import HopCodec.Settings
import HopCodec.Proofs.Block.Partition

namespace HopCodec

namespace BlockGrid

section Bounds

variable {width height blocksW blocksH : Nat} {g g' : BlockGrid}

theorem bounds_partition (hg : partition width height blocksW blocksH = .ok g) :
    g.xBounds = (gridBoundaries width blocksW).toArray ∧
      g.yBounds = (gridBoundaries height blocksH).toArray := by
  obtain ⟨-, rfl⟩ := ofBounds_eq_ok_iff.mp (partition_eq_ok_iff.mp hg).2
  exact ⟨rfl, rfl⟩

theorem bounds_subsample {factorX factorY : Nat} (hg : g.subsample factorX factorY = .ok g') :
    g'.xBounds = (g.xBounds.toList.map (ceilDiv · factorX)).toArray ∧
      g'.yBounds = (g.yBounds.toList.map (ceilDiv · factorY)).toArray := by
  obtain ⟨i, himage, rfl⟩ := subsample_eq_ok_iff.mp hg
  obtain ⟨-, rfl⟩ := ofBounds_eq_ok_iff.mp himage
  exact ⟨rfl, rfl⟩

end Bounds

/-- Blocks are as long as the pieces of the axes are. -/
theorem Tiles.requireSide_iff_spaced {g : BlockGrid} {width height side : Nat}
    (h : g.Tiles width height) (hposW : 0 < g.blocksW) (hposH : 0 < g.blocksH) :
    g.requireSide side = .ok () ↔
      Spaced side g.blocksW (g.xBounds.getD · 0) ∧ Spaced side g.blocksH (g.yBounds.getD · 0) := by
  rw [requireSide_eq_ok_iff]
  constructor
  · intro hall
    -- a piece of one axis is a side of its block in the first row or column
    have hpiece {column row : Nat} (hcolumn : column < g.blocksW) (hrow : row < g.blocksH) :
        g.xBounds.getD column 0 + side ≤ g.xBounds.getD (column + 1) 0 ∧
          g.yBounds.getD row 0 + side ≤ g.yBounds.getD (row + 1) 0 := by
      obtain ⟨i, hi, hplaced⟩ := h.exists_block hcolumn hrow
      obtain ⟨hwidth, hheight⟩ := hall _ (Array.getElem_mem hi)
      have hx := h.xCuts.rising column hcolumn
      have hy := h.yCuts.rising row hrow
      rw [Block.width, Axis.length, hplaced.x.start_eq, hplaced.x.stop_eq] at hwidth
      rw [Block.height, Axis.length, hplaced.y.start_eq, hplaced.y.stop_eq] at hheight
      omega
    exact ⟨fun column hcolumn => (hpiece hcolumn hposH).1, fun row hrow => (hpiece hposW hrow).2⟩
  · rintro ⟨hx, hy⟩ b hb
    obtain ⟨i, hi, rfl⟩ := Array.mem_iff_getElem.mp hb
    have hplaced := h.placed i hi
    rw [Block.width, Block.height, Axis.length, Axis.length, hplaced.x.start_eq, hplaced.x.stop_eq,
      hplaced.y.start_eq, hplaced.y.stop_eq]
    exact ⟨Nat.le_sub_of_add_le' (hx _ (h.column_lt hi)),
      Nat.le_sub_of_add_le' (hy _ (h.row_lt hi))⟩

end BlockGrid

namespace Settings

def leastSide (mode : FrameMode) : Nat :=
  if mode = .advanced then sideMin else 1

theorem one_le_leastSide (mode : FrameMode) : 1 ≤ leastSide mode := by
  cases mode <;> decide

section Axis

variable {len n factor side : Nat}

theorem axisFits_iff (hside : 1 ≤ side) :
    axisFits len n factor side = true ↔
      Spaced side n (fun i => i * len / n) ∧
        Spaced side n fun i => ceilDiv (i * len / n) factor := by
  have hsub (a b : Nat) : side ≤ b - a ↔ a + side ≤ b := by omega
  simp only [axisFits, pieceFits, List.all_eq_true, List.mem_range, Bool.and_eq_true,
    decide_eq_true_eq, hsub, Spaced]
  exact ⟨fun h => ⟨fun i hi => (h i hi).1, fun i hi => (h i hi).2⟩,
    fun h i hi => ⟨h.1 i hi, h.2 i hi⟩⟩

theorem axisFits_mono {side' : Nat} (hside' : 1 ≤ side') (hle : side' ≤ side)
    (h : axisFits len n factor side = true) : axisFits len n factor side' = true := by
  obtain ⟨hluma, hchroma⟩ := (axisFits_iff (Nat.le_trans hside' hle)).mp h
  exact (axisFits_iff hside').mpr ⟨hluma.mono hle, hchroma.mono hle⟩

/-- The boundaries of an axis and their images rise exactly if every piece keeps a pixel. -/
theorem axisFits_one_iff :
    axisFits len n factor 1 = true ↔
      strictlyRising (gridBoundaries len n) = true ∧
        strictlyRising ((gridBoundaries len n).map (ceilDiv · factor)) = true := by
  rw [axisFits_iff (Nat.le_refl 1), gridBoundaries, List.map_map, strictlyRising_map_range_iff,
    strictlyRising_map_range_iff]
  rfl

/-- One piece fits if the axis itself is long enough on both planes. -/
theorem axisFits_single_iff (hside : 1 ≤ side) (hfactor : 0 < factor) :
    axisFits len 1 factor side = true ↔ side ≤ len ∧ side ≤ ceilDiv len factor := by
  rw [axisFits_iff hside, Spaced.one_iff, Spaced.one_iff]
  simp [ceilDiv_zero hfactor]

/-- An axis that can be cut is long enough to be left whole. -/
theorem axisFits_single_of (hside : 1 ≤ side) (hfactor : 0 < factor) (hn : 1 ≤ n)
    (h : axisFits len n factor side = true) : axisFits len 1 factor side = true := by
  obtain ⟨hluma, hchroma⟩ := (axisFits_iff hside).mp h
  have hlumaTotal := hluma.total
  have hchromaTotal := hchroma.total
  simp only [Nat.zero_mul, Nat.zero_div, Nat.zero_add, ceilDiv_zero hfactor,
    Nat.mul_div_cancel_left len hn] at hlumaTotal hchromaTotal
  have hle : side ≤ n * side := Nat.le_mul_of_pos_left side hn
  exact (axisFits_single_iff hside hfactor).mpr
    ⟨Nat.le_trans hle hlumaTotal, Nat.le_trans hle hchromaTotal⟩

theorem one_le_fitAxis (len factor side n : Nat) : 1 ≤ fitAxis len factor side n := by
  induction n using fitAxis.induct len factor side <;> simp_all [fitAxis]

theorem fitAxis_le (len factor side n : Nat) : fitAxis len factor side n ≤ max n 1 := by
  induction n using fitAxis.induct len factor side with
  | case1 => exact Nat.le_refl 1
  | case2 => exact Nat.le_refl 1
  | case3 n hfits =>
      rw [fitAxis, if_pos hfits]
      omega
  | case4 n hfits ih =>
      rw [fitAxis, if_neg hfits]
      omega

/-- The search stops at a count that fits, or at one piece. -/
theorem fitAxis_eq_one_or (len factor side n : Nat) :
    fitAxis len factor side n = 1 ∨
      axisFits len (fitAxis len factor side n) factor side = true := by
  induction n using fitAxis.induct len factor side with
  | case1 => exact .inl rfl
  | case2 => exact .inl rfl
  | case3 n hfits =>
      rw [fitAxis, if_pos hfits]
      exact .inr hfits
  | case4 n hfits ih =>
      rw [fitAxis, if_neg hfits]
      exact ih

/-- The search passes no count that fits. -/
theorem le_fitAxis {a : Nat} (hle : a ≤ n) (hfits : axisFits len a factor side = true) :
    a ≤ fitAxis len factor side n := by
  induction n using fitAxis.induct len factor side with
  | case1 => exact Nat.le_trans hle (Nat.zero_le 1)
  | case2 => exact hle
  | case3 n hnext =>
      rw [fitAxis, if_pos hnext]
      exact hle
  | case4 n hnext ih =>
      rw [fitAxis, if_neg hnext]
      refine ih (Nat.le_of_lt_succ (Nat.lt_of_le_of_ne hle ?_))
      rintro rfl
      exact hnext hfits

/-- What the search finds fits exactly if the axis is long enough on both planes. -/
theorem axisFits_fitAxis_iff (hside : 1 ≤ side) (hfactor : 0 < factor) :
    axisFits len (fitAxis len factor side n) factor side = true ↔
      side ≤ len ∧ side ≤ ceilDiv len factor := by
  rw [← axisFits_single_iff hside hfactor]
  constructor
  · exact axisFits_single_of hside hfactor (one_le_fitAxis len factor side n)
  · intro hsingle
    rcases fitAxis_eq_one_or len factor side n with hone | hfits
    · rw [hone]
      exact hsingle
    · exact hfits

end Axis

end Settings

namespace BlockGrid

open Settings

section Subsampled

variable {width height blocksW blocksH factorX factorY : Nat}

/-- A plane and its subsampled image can be cut exactly if every piece keeps a pixel. -/
theorem exists_subsampled_iff (hposW : 0 < blocksW) (hposH : 0 < blocksH) :
    (∃ luma chroma, partition width height blocksW blocksH = .ok luma ∧
        luma.subsample factorX factorY = .ok chroma) ↔
      axisFits width blocksW factorX 1 = true ∧ axisFits height blocksH factorY 1 = true := by
  rw [axisFits_one_iff, axisFits_one_iff]
  constructor
  · rintro ⟨luma, chroma, hluma, hchroma⟩
    obtain ⟨⟨hx, hy⟩, rfl⟩ := ofBounds_eq_ok_iff.mp (partition_eq_ok_iff.mp hluma).2
    obtain ⟨i, himage, -⟩ := subsample_eq_ok_iff.mp hchroma
    obtain ⟨⟨hx', hy'⟩, -⟩ := ofBounds_eq_ok_iff.mp himage
    exact ⟨⟨hx, hx'⟩, hy, hy'⟩
  · rintro ⟨⟨hx, hx'⟩, hy, hy'⟩
    have hluma := partition_eq_ok_iff.mpr
      ⟨⟨hposW, hposH⟩, ofBounds_eq_ok_iff.mpr ⟨⟨hx, hy⟩, rfl⟩⟩
    exact ⟨_, _, hluma, subsample_eq_ok_iff.mpr
      ⟨_, ofBounds_eq_ok_iff.mpr ⟨⟨hx', hy'⟩, rfl⟩, rfl⟩⟩

/-- The blocks of a plane and of its subsampled image are as long as the pieces of the axes. -/
theorem requireSide_iff_axisFits {luma chroma : BlockGrid} {side : Nat} (hside : 1 ≤ side)
    (hfactorX : 0 < factorX) (hfactorY : 0 < factorY)
    (hluma : partition width height blocksW blocksH = .ok luma)
    (hchroma : luma.subsample factorX factorY = .ok chroma) :
    (luma.requireSide side = .ok () ∧ chroma.requireSide side = .ok ()) ↔
      axisFits width blocksW factorX side = true ∧ axisFits height blocksH factorY side = true := by
  have htiles := tiles_partition hluma
  obtain ⟨⟨hposW, hposH⟩, -⟩ := partition_eq_ok_iff.mp hluma
  obtain ⟨hW, hH⟩ := blocks_partition hluma
  obtain ⟨hW', hH'⟩ := blocks_subsample hchroma
  obtain ⟨hx, hy⟩ := bounds_partition hluma
  obtain ⟨hx', hy'⟩ := bounds_subsample hchroma
  rw [htiles.requireSide_iff_spaced (by rwa [hW]) (by rwa [hH]),
    (tiles_subsample htiles hfactorX hfactorY hchroma).requireSide_iff_spaced (by rwa [hW', hW])
      (by rwa [hH', hH]), hW', hH', hW, hH, hx', hy', hx, hy, axisFits_iff hside,
    axisFits_iff hside]
  have hpiece (len n : Nat) : Spaced side n ((gridBoundaries len n).toArray.getD · 0) ↔
      Spaced side n fun i => i * len / n :=
    Spaced.congr fun i hi => getD_gridBoundaries hi
  have himage (len n factor : Nat) (hfactor : 0 < factor) :
      Spaced side n
          (((gridBoundaries len n).toArray.toList.map (ceilDiv · factor)).toArray.getD · 0) ↔
        Spaced side n fun i => ceilDiv (i * len / n) factor := by
    refine Spaced.congr fun i hi => ?_
    rw [getD_map_ceilDiv _ hfactor, getD_gridBoundaries hi]
  rw [hpiece, hpiece, himage _ _ _ hfactorX, himage _ _ _ hfactorY]
  exact and_and_and_comm

end Subsampled

end BlockGrid

namespace FrameHeader

open BlockGrid Settings

/-- A header has grids exactly if both axes can be cut into its blocks. -/
theorem exists_grids_iff {h : FrameHeader} (hposW : 0 < h.blocksW.toNat)
    (hposH : 0 < h.blocksH.toNat) :
    (∃ g, h.grids = .ok g) ↔
      axisFits h.width.toNat h.blocksW.toNat h.chroma.factors.1 (leastSide h.mode) = true ∧
        axisFits h.height.toNat h.blocksH.toNat h.chroma.factors.2 (leastSide h.mode) = true := by
  obtain ⟨hfactorX, hfactorY⟩ := h.chroma.factors_pos
  have hside := one_le_leastSide h.mode
  by_cases hmode : h.mode = .advanced
  · have hleast : leastSide h.mode = sideMin := if_pos hmode
    rw [hleast] at hside ⊢
    constructor
    · rintro ⟨g, hg⟩
      obtain ⟨hluma, hchroma, hsides⟩ := grids_eq_ok_iff.mp hg
      exact (requireSide_iff_axisFits hside hfactorX hfactorY hluma hchroma).mp (hsides hmode)
    · intro hfits
      obtain ⟨luma, chroma, hluma, hchroma⟩ := (exists_subsampled_iff hposW hposH).mpr
        ⟨axisFits_mono (Nat.le_refl 1) hside hfits.1, axisFits_mono (Nat.le_refl 1) hside hfits.2⟩
      have hsides := (requireSide_iff_axisFits hside hfactorX hfactorY hluma hchroma).mpr hfits
      exact ⟨⟨luma, chroma⟩, grids_eq_ok_iff.mpr ⟨hluma, hchroma, fun _ => hsides⟩⟩
  · have hleast : leastSide h.mode = 1 := if_neg hmode
    rw [hleast, ← exists_subsampled_iff hposW hposH]
    constructor
    · rintro ⟨g, hg⟩
      obtain ⟨hluma, hchroma, -⟩ := grids_eq_ok_iff.mp hg
      exact ⟨g.luma, g.chroma, hluma, hchroma⟩
    · rintro ⟨luma, chroma, hluma, hchroma⟩
      exact ⟨⟨luma, chroma⟩,
        grids_eq_ok_iff.mpr ⟨hluma, hchroma, fun hadvanced => absurd hadvanced hmode⟩⟩

/-- The header of the same frame on another grid. -/
def onGrid (h : FrameHeader) (blocks : UInt8 × UInt8) : FrameHeader :=
  { h with blocksW := blocks.1, blocksH := blocks.2 }

end FrameHeader

namespace Settings

/-- Settings and a frame size that leave the grid as the only thing a header may be refused for. -/
structure Gridded (s : Settings) (width height : UInt32) : Prop where
  mode : s.mode ≠ .sequential
  prediction : s.prediction = .average
  ratio_ge : Predictor.ratioMin ≤ s.ratio.toNat
  ratio_le : s.ratio.toNat ≤ Predictor.ratioMax
  width_pos : 1 ≤ width.toNat
  height_pos : 1 ≤ height.toNat
  width_le : width.toNat ≤ FrameHeader.dimensionMax
  height_le : height.toNat ≤ FrameHeader.dimensionMax
  pixels_le : width.toNat * height.toNat ≤ FrameHeader.pixelsMax

section Gridded

variable {s : Settings} {width height : UInt32}

theorem Gridded.inRange (h : s.Gridded width height) (chroma : ChromaFormat)
    {blocks : UInt8 × UInt8} (hposW : 0 < blocks.1.toNat) (hposH : 0 < blocks.2.toNat) :
    ((s.header chroma width height).onGrid blocks).InRange where
  width_pos := h.width_pos
  height_pos := h.height_pos
  width_le := h.width_le
  height_le := h.height_le
  pixels_le := h.pixels_le
  blocksW_pos := hposW
  blocksH_pos := hposH
  single := fun hmode => absurd hmode h.mode
  ratio_ge := h.ratio_ge
  ratio_le := h.ratio_le
  average := fun hweighted => by
    have haverage : s.prediction = .weighted := hweighted
    rw [h.prediction] at haverage
    cases haverage

/-- A header is judged one axis at a time. -/
theorem Gridded.validate_iff (h : s.Gridded width height) (chroma : ChromaFormat)
    (blocks : UInt8 × UInt8) (hposW : 0 < blocks.1.toNat) (hposH : 0 < blocks.2.toNat) :
    ((s.header chroma width height).onGrid blocks).validate = .ok () ↔
      axisFits width.toNat blocks.1.toNat chroma.factors.1 (leastSide s.mode) = true ∧
        axisFits height.toNat blocks.2.toNat chroma.factors.2 (leastSide s.mode) = true := by
  rw [FrameHeader.validate_eq_ok_iff, and_iff_right (h.inRange chroma hposW hposH)]
  exact FrameHeader.exists_grids_iff hposW hposH

theorem toNat_fitAxis (len factor side : Nat) (requested : UInt8) :
    (UInt8.ofNat (fitAxis len factor side requested.toNat)).toNat =
      fitAxis len factor side requested.toNat := by
  have hle := fitAxis_le len factor side requested.toNat
  have hlt := requested.toNat_lt
  rw [UInt8.toNat_ofNat']
  exact Nat.mod_eq_of_lt (by omega)

theorem toNat_fitGrid (hmode : s.mode ≠ .sequential) (w h : Nat) (chroma : ChromaFormat) :
    (s.fitGrid w h chroma).1.toNat =
        fitAxis w chroma.factors.1 (leastSide s.mode) s.blocksW.toNat ∧
      (s.fitGrid w h chroma).2.toNat =
        fitAxis h chroma.factors.2 (leastSide s.mode) s.blocksH.toNat := by
  simp only [fitGrid, if_neg hmode]
  exact ⟨toNat_fitAxis .., toNat_fitAxis ..⟩

/-- The fitted grid is refused exactly if some plane is too short for a single block. -/
theorem Gridded.validate_fitGrid_iff (h : s.Gridded width height) (chroma : ChromaFormat) :
    ((s.header chroma width height).onGrid
        (s.fitGrid width.toNat height.toNat chroma)).validate = .ok () ↔
      (leastSide s.mode ≤ width.toNat ∧ leastSide s.mode ≤ ceilDiv width.toNat chroma.factors.1) ∧
        leastSide s.mode ≤ height.toNat ∧
          leastSide s.mode ≤ ceilDiv height.toNat chroma.factors.2 := by
  obtain ⟨hfactorX, hfactorY⟩ := chroma.factors_pos
  have hside := one_le_leastSide s.mode
  obtain ⟨hcolumns, hrows⟩ := toNat_fitGrid h.mode width.toNat height.toNat chroma
  rw [h.validate_iff chroma _ (by rw [hcolumns]; exact one_le_fitAxis ..)
    (by rw [hrows]; exact one_le_fitAxis ..), hcolumns, hrows,
    axisFits_fitAxis_iff hside hfactorX, axisFits_fitAxis_iff hside hfactorY]

/-- The fitted grid is the largest accepted one up to the requested one.  It is accepted whenever
any of those is; blocks that keep all their pixels always fit, and blocks that may be downsampled
do unless a plane is shorter than one of them. -/
theorem validate_fitGrid (h : s.Gridded width height) (chroma : ChromaFormat) :
    let fitted := s.fitGrid width.toNat height.toNat chroma
    let header := s.header chroma width height
    (fitted.1.toNat ≤ max s.blocksW.toNat 1 ∧ fitted.2.toNat ≤ max s.blocksH.toNat 1) ∧
      (∀ a b : UInt8, 1 ≤ a → a ≤ s.blocksW → 1 ≤ b → b ≤ s.blocksH →
        (header.onGrid (a, b)).validate = .ok () →
          a ≤ fitted.1 ∧ b ≤ fitted.2 ∧ (header.onGrid fitted).validate = .ok ()) ∧
      (s.mode = .parallel → (header.onGrid fitted).validate = .ok ()) ∧
      (s.mode = .advanced → ((header.onGrid fitted).validate = .ok () ↔
        (sideMin ≤ header.lumaSize.1 ∧ sideMin ≤ header.lumaSize.2) ∧
          sideMin ≤ header.chromaSize.1 ∧ sideMin ≤ header.chromaSize.2)) := by
  intro fitted header
  obtain ⟨hfactorX, hfactorY⟩ := chroma.factors_pos
  have hside := one_le_leastSide s.mode
  obtain ⟨hcolumns, hrows⟩ := toNat_fitGrid h.mode width.toNat height.toNat chroma
  refine ⟨⟨?_, ?_⟩, ?_, ?_, ?_⟩
  · rw [hcolumns]
    exact fitAxis_le ..
  · rw [hrows]
    exact fitAxis_le ..
  · intro a b ha haMax hb hbMax hvalid
    rw [UInt8.le_iff_toNat_le] at ha haMax hb hbMax
    obtain ⟨hx, hy⟩ := (h.validate_iff chroma (a, b) ha hb).mp hvalid
    rw [UInt8.le_iff_toNat_le, UInt8.le_iff_toNat_le, hcolumns, hrows]
    refine ⟨le_fitAxis haMax hx, le_fitAxis hbMax hy, (h.validate_fitGrid_iff chroma).mpr ⟨?_, ?_⟩⟩
    · exact (axisFits_single_iff hside hfactorX).mp (axisFits_single_of hside hfactorX ha hx)
    · exact (axisFits_single_iff hside hfactorY).mp (axisFits_single_of hside hfactorY hb hy)
  · intro hmode
    refine (h.validate_fitGrid_iff chroma).mpr ?_
    rw [show leastSide s.mode = 1 by rw [hmode]; rfl]
    exact ⟨⟨h.width_pos, ceilDiv_pos h.width_pos hfactorX⟩,
      h.height_pos, ceilDiv_pos h.height_pos hfactorY⟩
  · intro hmode
    have hleast : leastSide s.mode = sideMin := if_pos hmode
    refine (h.validate_fitGrid_iff chroma).trans ?_
    rw [hleast]
    exact and_and_and_comm

/-- A grid of four by four blocks is cut down to two by one for five by three pixels. -/
theorem validate_fitGrid_small :
    let s : Settings := { mode := .advanced, blocksW := 4, blocksH := 4 }
    s.Gridded 5 3 ∧ s.fitGrid 5 3 .yuv444 = (2, 1) ∧
      ((s.header .yuv444 5 3).onGrid (2, 1)).validate = .ok () := by
  intro s
  have hgridded : s.Gridded 5 3 :=
    ⟨by decide, rfl, by decide, by decide, by decide, by decide, by decide, by decide, by decide⟩
  have hfitted : s.fitGrid 5 3 .yuv444 = (2, 1) := by decide
  have hvalid := ((validate_fitGrid hgridded .yuv444).2.2.2 rfl).mpr (by decide)
  rw [show (5 : UInt32).toNat = 5 from rfl, show (3 : UInt32).toNat = 3 from rfl, hfitted] at hvalid
  exact ⟨hgridded, hfitted, hvalid⟩

end Gridded

end Settings

end HopCodec
