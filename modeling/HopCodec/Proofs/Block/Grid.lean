/-
Block grids tile their planes.  Boundaries rise strictly from `0` to the length of an axis, so
every pixel lies in exactly one block; subsampling and shaping keep this, and leave every block
with at least one sample and at most one per pixel in each direction.
-/
import Mathlib.Algebra.GroupWithZero.Nat
import Mathlib.Tactic.ByContra
import HopCodec.Block.Shape
import HopCodec.Frame.Prologue
import HopCodec.Proofs.Results

namespace HopCodec

theorem strictlyRising_iff (bounds : List Nat) :
    strictlyRising bounds = true ↔
      ∀ i, i + 1 < bounds.length → bounds.getD i 0 < bounds.getD (i + 1) 0 := by
  induction bounds with
  | nil => simp [strictlyRising]
  | cons a rest ih =>
      cases rest with
      | nil => simp [strictlyRising]
      | cons b rest =>
          simp only [strictlyRising, Bool.and_eq_true, decide_eq_true_eq, ih]
          constructor
          · rintro ⟨hhead, htail⟩ i hi
            cases i with
            | zero => exact hhead
            | succ i => exact htail i (by simpa using hi)
          · intro hall
            exact ⟨hall 0 (by simp), fun i hi => hall (i + 1) (by simpa using hi)⟩

theorem getD_toArray (bounds : List Nat) (i : Nat) :
    bounds.toArray.getD i 0 = bounds.getD i 0 := by
  simp [Array.getD_eq_getD_getElem?, List.getD_eq_getElem?_getD]

theorem rising_toArray {bounds : List Nat} (h : strictlyRising bounds = true) {i : Nat}
    (hi : i + 1 < bounds.length) : bounds.toArray.getD i 0 < bounds.toArray.getD (i + 1) 0 := by
  rw [getD_toArray, getD_toArray]
  exact (strictlyRising_iff bounds).mp h i hi

/-- Boundaries that cut `len` pixels into `n` pieces, none of them empty. -/
structure Cuts (bounds : Array Nat) (len n : Nat) : Prop where
  size : bounds.size = n + 1
  first : bounds.getD 0 0 = 0
  last : bounds.getD n 0 = len
  rising : ∀ i, i < n → bounds.getD i 0 < bounds.getD (i + 1) 0

namespace Cuts

variable {bounds : Array Nat} {len n : Nat}

theorem lt_of_lt (h : Cuts bounds len n) {i j : Nat} (hij : i < j) (hj : j ≤ n) :
    bounds.getD i 0 < bounds.getD j 0 := by
  induction j with
  | zero => omega
  | succ j ih =>
      have hstep := h.rising j (by omega)
      by_cases heq : i = j
      · rw [heq]
        exact hstep
      · have hbefore := ih (by omega) (by omega)
        omega

theorem le_of_le (h : Cuts bounds len n) {i j : Nat} (hij : i ≤ j) (hj : j ≤ n) :
    bounds.getD i 0 ≤ bounds.getD j 0 := by
  rcases Nat.eq_or_lt_of_le hij with heq | hlt
  · exact Nat.le_of_eq (congrArg (bounds.getD · 0) heq)
  · exact Nat.le_of_lt (h.lt_of_lt hlt hj)

theorem le_len (h : Cuts bounds len n) {i : Nat} (hi : i ≤ n) : bounds.getD i 0 ≤ len := by
  have hle := h.le_of_le hi (Nat.le_refl n)
  rwa [h.last] at hle

/-- There is at least a pixel in every piece between two boundaries. -/
theorem add_le (h : Cuts bounds len n) {i k : Nat} (hik : i + k ≤ n) :
    bounds.getD i 0 + k ≤ bounds.getD (i + k) 0 := by
  induction k with
  | zero => exact Nat.le_refl _
  | succ k ih => exact Nat.lt_of_le_of_lt (ih (Nat.le_of_succ_le hik)) (h.rising (i + k) hik)

/-- Pieces that are not empty are no more than there are pixels. -/
theorem count_le (h : Cuts bounds len n) : n ≤ len := by
  have hle := h.add_le (i := 0) (k := n) (Nat.le_of_eq (Nat.zero_add n))
  rwa [h.first, Nat.zero_add, h.last] at hle

/-- As many pieces as pixels leave no choice. -/
theorem eq_range (h : Cuts bounds n n) : bounds = Array.range (n + 1) := by
  apply Array.ext
  · rw [h.size, Array.size_range]
  · intro i hi _
    have hin : i ≤ n := by
      rw [h.size] at hi
      exact Nat.le_of_lt_succ hi
    have hbehind := h.add_le (i := 0) (k := i) (by omega)
    have hahead := h.add_le (i := i) (k := n - i) (by omega)
    rw [h.first, Nat.zero_add] at hbehind
    rw [Nat.add_sub_cancel' hin, h.last] at hahead
    have hget : bounds.getD i 0 = bounds[i] := by simp [Array.getD_eq_getD_getElem?, hi]
    rw [Array.getElem_range, ← hget]
    omega

/-- Every pixel lies in a piece. -/
theorem exists_piece (h : Cuts bounds len n) {x : Nat} (hx : x < len) :
    ∃ i, i < n ∧ bounds.getD i 0 ≤ x ∧ x < bounds.getD (i + 1) 0 := by
  have hsearch : ∀ k, k ≤ n → x < bounds.getD k 0 →
      ∃ i, i < k ∧ bounds.getD i 0 ≤ x ∧ x < bounds.getD (i + 1) 0 := by
    intro k
    induction k with
    | zero =>
        intro _ hlt
        rw [h.first] at hlt
        omega
    | succ k ih =>
        intro hk hlt
        by_cases hbelow : bounds.getD k 0 ≤ x
        · exact ⟨k, by omega, hbelow, hlt⟩
        · obtain ⟨i, hi, hpiece⟩ := ih (by omega) (by omega)
          exact ⟨i, by omega, hpiece⟩
  exact hsearch n (Nat.le_refl n) (by rw [h.last]; exact hx)

/-- No pixel lies in two pieces. -/
theorem piece_unique (h : Cuts bounds len n) {i j x : Nat} (hi : i < n) (hj : j < n)
    (hxi : bounds.getD i 0 ≤ x ∧ x < bounds.getD (i + 1) 0)
    (hxj : bounds.getD j 0 ≤ x ∧ x < bounds.getD (j + 1) 0) : i = j := by
  rcases Nat.lt_trichotomy i j with hlt | heq | hgt
  · have hle := h.le_of_le (i := i + 1) (j := j) (by omega) (by omega)
    omega
  · exact heq
  · have hle := h.le_of_le (i := j + 1) (j := i) (by omega) (by omega)
    omega

end Cuts

theorem getD_map_toArray (bounds : List Nat) (f : Nat → Nat) (hf : f 0 = 0) (i : Nat) :
    (bounds.map f).toArray.getD i 0 = f (bounds.getD i 0) := by
  simp only [Array.getD_eq_getD_getElem?, List.getElem?_toArray, List.getElem?_map,
    List.getD_eq_getElem?_getD]
  cases bounds[i]? with
  | none => exact hf.symm
  | some b => rfl

theorem getD_gridBoundaries {len n i : Nat} (hi : i ≤ n) :
    (gridBoundaries len n).toArray.getD i 0 = i * len / n := by
  have hlt : i < n + 1 := by omega
  simp [gridBoundaries, Array.getD_eq_getD_getElem?, hlt]

theorem cuts_gridBoundaries {len n : Nat} (hn : 0 < n)
    (hrising : strictlyRising (gridBoundaries len n) = true) :
    Cuts (gridBoundaries len n).toArray len n := by
  refine ⟨by simp [gridBoundaries], ?_, ?_, ?_⟩
  · rw [getD_gridBoundaries (Nat.zero_le n), Nat.zero_mul, Nat.zero_div]
  · rw [getD_gridBoundaries (Nat.le_refl n), Nat.mul_div_cancel_left len hn]
  · intro i hi
    exact rising_toArray hrising (by simpa [gridBoundaries] using hi)

theorem ceilDiv_zero {factor : Nat} (h : 0 < factor) : ceilDiv 0 factor = 0 := by
  unfold ceilDiv
  exact Nat.div_eq_of_lt (by omega)

/-- The images of boundaries on a subsampled plane. -/
theorem getD_map_ceilDiv (bounds : Array Nat) {factor : Nat} (hfactor : 0 < factor) (i : Nat) :
    (bounds.toList.map (ceilDiv · factor)).toArray.getD i 0 = ceilDiv (bounds.getD i 0) factor := by
  rw [getD_map_toArray bounds.toList (ceilDiv · factor) (ceilDiv_zero hfactor), ← getD_toArray]

theorem cuts_map_ceilDiv {bounds : Array Nat} {len n factor : Nat} (h : Cuts bounds len n)
    (hfactor : 0 < factor)
    (hrising : strictlyRising (bounds.toList.map (ceilDiv · factor)) = true) :
    Cuts (bounds.toList.map (ceilDiv · factor)).toArray (ceilDiv len factor) n := by
  refine ⟨by simp [h.size], ?_, ?_, ?_⟩
  · rw [getD_map_ceilDiv bounds hfactor, h.first, ceilDiv_zero hfactor]
  · rw [getD_map_ceilDiv bounds hfactor, h.last]
  · intro i hi
    exact rising_toArray hrising (by simpa [h.size] using hi)

/-- An axis lies between two boundaries and keeps at least one sample, and at most one per
pixel. -/
structure Axis.Spans (a : Axis) (start stop : Nat) : Prop where
  start_eq : a.start = start
  stop_eq : a.stop = stop
  samples_pos : 0 < a.samples
  samples_le : a.samples ≤ a.length

theorem Axis.Spans.length_le {a : Axis} {start stop : Nat} (h : a.Spans start stop) :
    a.length ≤ stop := by
  rw [length, h.stop_eq]
  exact Nat.sub_le _ _

theorem Axis.spans_full {start stop : Nat} (h : start < stop) :
    (Axis.full start stop).Spans start stop := by
  refine ⟨rfl, rfl, ?_, ?_⟩ <;> simp only [full, length] <;> omega

theorem Block.isDownsampled_of_full {b : Block}
    (h : b.x.samples = b.x.length ∧ b.y.samples = b.y.length) : b.isDownsampled = false := by
  simp [isDownsampled, Axis.isReduced, h.1, h.2]

namespace BlockGrid

/-- The block in column `column` and row `row` lies between the boundaries around them. -/
structure Placed (xBounds yBounds : Array Nat) (column row : Nat) (b : Block) : Prop where
  x : b.x.Spans (xBounds.getD column 0) (xBounds.getD (column + 1) 0)
  y : b.y.Spans (yBounds.getD row 0) (yBounds.getD (row + 1) 0)

/-- A grid tiles a plane if its boundaries cut both axes and its blocks lie between them in raster
order. -/
structure Tiles (g : BlockGrid) (width height : Nat) : Prop where
  xCuts : Cuts g.xBounds width g.blocksW
  yCuts : Cuts g.yBounds height g.blocksH
  size_blocks : g.blocks.size = g.blocksW * g.blocksH
  placed : ∀ i (h : i < g.blocks.size),
    Placed g.xBounds g.yBounds (i % g.blocksW) (i / g.blocksW) g.blocks[i]

/-- No block of the grid drops a sample. -/
def Full (g : BlockGrid) : Prop :=
  ∀ b ∈ g.blocks, b.x.samples = b.x.length ∧ b.y.samples = b.y.length

theorem sampleCount_eq_sum (g : BlockGrid) :
    g.sampleCount = (g.blocks.toList.map Block.sampleCount).sum := by
  rw [sampleCount, ← Array.foldl_toList, List.sum_eq_foldl, List.foldl_map]

theorem mod_lt_of_lt_mul {i m n : Nat} (h : i < m * n) : i % m < m := by
  apply Nat.mod_lt
  by_contra hzero
  have : m = 0 := by omega
  simp [this] at h

theorem div_lt_of_lt_mul {i m n : Nat} (h : i < m * n) : i / m < n :=
  Nat.div_lt_of_lt_mul h

namespace Tiles

variable {g : BlockGrid} {width height : Nat}

theorem column_lt (h : g.Tiles width height) {i : Nat} (hi : i < g.blocks.size) :
    i % g.blocksW < g.blocksW := by
  rw [h.size_blocks] at hi
  exact mod_lt_of_lt_mul hi

theorem row_lt (h : g.Tiles width height) {i : Nat} (hi : i < g.blocks.size) :
    i / g.blocksW < g.blocksH := by
  rw [h.size_blocks] at hi
  exact div_lt_of_lt_mul hi

/-- No block is empty. -/
theorem area_pos (h : g.Tiles width height) {b : Block} (hb : b ∈ g.blocks) :
    0 < b.width * b.height := by
  obtain ⟨i, hi, rfl⟩ := Array.mem_iff_getElem.mp hb
  have hplaced := h.placed i hi
  exact Nat.mul_pos (Nat.lt_of_lt_of_le hplaced.x.samples_pos hplaced.x.samples_le)
    (Nat.lt_of_lt_of_le hplaced.y.samples_pos hplaced.y.samples_le)

end Tiles

/-- Whether a grid between the given boundaries exists is decided by them alone. -/
theorem ofBounds_eq_ok_iff {blocksW blocksH : Nat} {xBounds yBounds : List Nat} {g : BlockGrid} :
    ofBounds blocksW blocksH xBounds yBounds = .ok g ↔
      (strictlyRising xBounds = true ∧ strictlyRising yBounds = true) ∧
        g = ⟨blocksW, blocksH, xBounds.toArray, yBounds.toArray,
          Array.ofFn fun i : Fin (blocksW * blocksH) =>
            blockAt xBounds.toArray yBounds.toArray (i % blocksW) (i / blocksW)⟩ := by
  unfold ofBounds
  rw [← Bool.and_eq_true]
  by_cases hrising : (strictlyRising xBounds && strictlyRising yBounds) = true
  · simp only [hrising, if_true, true_and, Except.ok.injEq]
    exact eq_comm
  · simp [hrising]

theorem full_ofBounds {blocksW blocksH : Nat} {xBounds yBounds : List Nat} {g : BlockGrid}
    (hg : ofBounds blocksW blocksH xBounds yBounds = .ok g) : g.Full := by
  obtain ⟨-, rfl⟩ := ofBounds_eq_ok_iff.mp hg
  intro b hb
  obtain ⟨i, -, rfl⟩ := Array.mem_ofFn.mp hb
  exact ⟨rfl, rfl⟩

theorem tiles_ofBounds {width height blocksW blocksH : Nat} {xBounds yBounds : List Nat}
    {g : BlockGrid} (hx : Cuts xBounds.toArray width blocksW)
    (hy : Cuts yBounds.toArray height blocksH)
    (hg : ofBounds blocksW blocksH xBounds yBounds = .ok g) : g.Tiles width height := by
  obtain ⟨-, rfl⟩ := ofBounds_eq_ok_iff.mp hg
  refine ⟨hx, hy, by simp, ?_⟩
  intro i hi
  have hlt : i < blocksW * blocksH := by simpa using hi
  simp only [Array.getElem_ofFn, blockAt, Block.full]
  exact ⟨Axis.spans_full (hx.rising _ (mod_lt_of_lt_mul hlt)),
    Axis.spans_full (hy.rising _ (div_lt_of_lt_mul hlt))⟩

section Partition

variable {width height blocksW blocksH : Nat} {g : BlockGrid}

theorem partition_eq_ok_iff :
    partition width height blocksW blocksH = .ok g ↔ (0 < blocksW ∧ 0 < blocksH) ∧
      ofBounds blocksW blocksH (gridBoundaries width blocksW) (gridBoundaries height blocksH) =
        .ok g := by
  unfold partition
  by_cases hnone : blocksW = 0 ∨ blocksH = 0
  · rw [if_pos hnone]
    constructor
    · intro h
      cases h
    · rintro ⟨hpos, -⟩
      omega
  · rw [if_neg hnone]
    have hpos : 0 < blocksW ∧ 0 < blocksH := by omega
    exact (and_iff_right hpos).symm

/-- A plane cut into blocks is tiled by them. -/
theorem tiles_partition (hg : partition width height blocksW blocksH = .ok g) :
    g.Tiles width height := by
  obtain ⟨⟨hposW, hposH⟩, hg⟩ := partition_eq_ok_iff.mp hg
  obtain ⟨⟨hx, hy⟩, -⟩ := ofBounds_eq_ok_iff.mp hg
  exact tiles_ofBounds (cuts_gridBoundaries hposW hx) (cuts_gridBoundaries hposH hy) hg

theorem blocks_partition (hg : partition width height blocksW blocksH = .ok g) :
    g.blocksW = blocksW ∧ g.blocksH = blocksH := by
  obtain ⟨-, rfl⟩ := ofBounds_eq_ok_iff.mp (partition_eq_ok_iff.mp hg).2
  exact ⟨rfl, rfl⟩

theorem full_partition (hg : partition width height blocksW blocksH = .ok g) : g.Full :=
  full_ofBounds (partition_eq_ok_iff.mp hg).2

end Partition

theorem spans_subsampleAxis {image source : Axis} {start stop factor : Nat}
    (h : image.Spans start stop) : (subsampleAxis image source factor).Spans start stop := by
  have hpos := h.samples_pos
  have hle := h.samples_le
  refine ⟨h.start_eq, h.stop_eq, ?_, ?_⟩
  · simp only [subsampleAxis]
    split
    · unfold sideMin
      omega
    · exact hpos
  · change (subsampleAxis image source factor).samples ≤ image.length
    simp only [subsampleAxis]
    split
    · exact Nat.min_le_right _ _
    · exact hle

/-- The full-resolution grid between the images of the boundaries of a grid. -/
def image (g : BlockGrid) (factorX factorY : Nat) : Except Fault BlockGrid :=
  ofBounds g.blocksW g.blocksH (g.xBounds.toList.map (ceilDiv · factorX))
    (g.yBounds.toList.map (ceilDiv · factorY))

/-- A subsampled grid is the image of the grid, with the sampling carried over. -/
theorem subsample_eq_ok_iff {g g' : BlockGrid} {factorX factorY : Nat} :
    g.subsample factorX factorY = .ok g' ↔
      ∃ i, g.image factorX factorY = .ok i ∧
        g' = { i with
          blocks := i.blocks.zipWith
            (fun b source =>
              ⟨subsampleAxis b.x source.x factorX, subsampleAxis b.y source.y factorY⟩)
            g.blocks } := by
  change (g.image factorX factorY >>= _) = _ ↔ _
  simp only [bind_eq_ok_iff, pure_eq_ok_iff, eq_comm (a := g')]

/-- Subsampling carries a tiling over to the smaller plane. -/
theorem tiles_subsample {g g' : BlockGrid} {width height factorX factorY : Nat}
    (h : g.Tiles width height) (hfactorX : 0 < factorX) (hfactorY : 0 < factorY)
    (hg : g.subsample factorX factorY = .ok g') :
    g'.Tiles (ceilDiv width factorX) (ceilDiv height factorY) := by
  obtain ⟨i, himage, rfl⟩ := subsample_eq_ok_iff.mp hg
  obtain ⟨⟨hx, hy⟩, heq⟩ := ofBounds_eq_ok_iff.mp himage
  have htiles := tiles_ofBounds (cuts_map_ceilDiv h.xCuts hfactorX hx)
    (cuts_map_ceilDiv h.yCuts hfactorY hy) himage
  have hblocksW : i.blocksW = g.blocksW := by rw [heq]
  have hblocksH : i.blocksH = g.blocksH := by rw [heq]
  refine ⟨htiles.xCuts, htiles.yCuts, ?_, ?_⟩
  · simp only [Array.size_zipWith, htiles.size_blocks, h.size_blocks, hblocksW, hblocksH,
      Nat.min_self]
  · intro k hk
    have hlt : k < i.blocks.size := by
      have hsize : k < min i.blocks.size g.blocks.size := by simpa using hk
      omega
    have hplaced := htiles.placed k hlt
    simp only [Array.getElem_zipWith]
    exact ⟨spans_subsampleAxis hplaced.x, spans_subsampleAxis hplaced.y⟩

/-- Whether a grid can be subsampled is decided by its boundaries. -/
theorem exists_subsample_congr {g g' : BlockGrid} {factorX factorY : Nat}
    (himage : g'.image factorX factorY = g.image factorX factorY)
    (hg : ∃ s, g.subsample factorX factorY = .ok s) :
    ∃ s, g'.subsample factorX factorY = .ok s := by
  obtain ⟨s, hs⟩ := hg
  obtain ⟨i, hi, -⟩ := subsample_eq_ok_iff.mp hs
  exact ⟨_, subsample_eq_ok_iff.mpr ⟨i, himage.trans hi, rfl⟩⟩

theorem blocks_subsample {g g' : BlockGrid} {factorX factorY : Nat}
    (hg : g.subsample factorX factorY = .ok g') :
    g'.blocksW = g.blocksW ∧ g'.blocksH = g.blocksH := by
  obtain ⟨i, himage, rfl⟩ := subsample_eq_ok_iff.mp hg
  obtain ⟨-, rfl⟩ := ofBounds_eq_ok_iff.mp himage
  exact ⟨rfl, rfl⟩

/-- A full grid stays full when it is subsampled. -/
theorem full_subsample {g g' : BlockGrid} {factorX factorY : Nat} (h : g.Full)
    (hg : g.subsample factorX factorY = .ok g') : g'.Full := by
  obtain ⟨i, himage, rfl⟩ := subsample_eq_ok_iff.mp hg
  intro b hb
  obtain ⟨k, hk, rfl⟩ := Array.mem_iff_getElem.mp hb
  have hsize : k < min i.blocks.size g.blocks.size := by simpa using hk
  have hki : k < i.blocks.size := by omega
  have hkg : k < g.blocks.size := by omega
  obtain ⟨hix, hiy⟩ := full_ofBounds himage _ (Array.getElem_mem hki)
  obtain ⟨hsx, hsy⟩ := h _ (Array.getElem_mem hkg)
  simp only [Array.getElem_zipWith, subsampleAxis, Axis.isReduced, hsx, hsy]
  simp only [Nat.lt_irrefl, decide_false, Bool.false_eq_true, if_false]
  exact ⟨hix, hiy⟩

theorem spans_shape {a : Axis} {start stop : Nat} (h : a.Spans start stop)
    (direction : Direction) (relevance : Corners RelevanceLevel) (factor : Float32) :
    (a.shape direction relevance factor).Spans start stop := by
  have hpos := h.samples_pos
  have hle := h.samples_le
  refine ⟨h.start_eq, h.stop_eq, ?_, ?_⟩
  · simp only [Axis.shape, axisSamples, sideMin]
    omega
  · change axisSamples _ _ _ ≤ a.length
    exact Nat.min_le_right _ _

theorem requireSide_eq_ok_iff {g : BlockGrid} {side : Nat} :
    g.requireSide side = .ok () ↔ ∀ b ∈ g.blocks, side ≤ b.width ∧ side ≤ b.height := by
  unfold requireSide
  by_cases hany : (g.blocks.any fun b => b.width < side || b.height < side) = true
  · simp only [hany, if_true, reduceCtorEq, false_iff]
    simp only [Array.any_eq_true', Bool.or_eq_true, decide_eq_true_eq] at hany
    obtain ⟨b, hb, hsmall⟩ := hany
    intro hall
    have hlarge := hall b hb
    omega
  · simp only [hany, Bool.false_eq_true, if_false, true_iff]
    intro b hb
    simp only [Array.any_eq_true', Bool.or_eq_true, decide_eq_true_eq, not_exists, not_and,
      not_or, Nat.not_lt] at hany
    exact hany b hb

/-- A mesh of another size is refused. -/
theorem applyMesh_mismatch {g : BlockGrid} {mesh : RelevanceMesh}
    (hmesh : ¬ (mesh.blocksW = g.blocksW ∧ mesh.blocksH = g.blocksH)) (pow : Power)
    (quality : Nat) : g.applyMesh pow mesh quality = .error (.argument .meshMismatch) := by
  unfold applyMesh
  rw [if_pos (by omega)]

/-- A mesh shapes the grids of its own size whose blocks are large enough. -/
theorem applyMesh_eq_ok_iff {g g' : BlockGrid} {pow : Power} {mesh : RelevanceMesh}
    {quality : Nat} :
    g.applyMesh pow mesh quality = .ok g' ↔
      (mesh.blocksW = g.blocksW ∧ mesh.blocksH = g.blocksH) ∧ g.requireSide sideMin = .ok () ∧
        g' = g.mapBlocks fun column row b =>
          b.shape (mesh.blockCorners column row) (compressionFactor pow quality) := by
  by_cases hmesh : mesh.blocksW = g.blocksW ∧ mesh.blocksH = g.blocksH
  · rw [applyMesh, if_neg (by omega), bind_eq_ok_iff]
    simp only [pure_eq_ok_iff, hmesh, and_self, true_and]
    constructor
    · rintro ⟨⟨⟩, hside, rfl⟩
      exact ⟨hside, rfl⟩
    · rintro ⟨hside, rfl⟩
      exact ⟨_, hside, rfl⟩
  · rw [applyMesh_mismatch hmesh]
    simp [hmesh]

/-- A mesh that shapes a grid at all keeps its tiling. -/
theorem tiles_applyMesh {g g' : BlockGrid} {width height quality : Nat} {pow : Power}
    {mesh : RelevanceMesh} (h : g.Tiles width height) (hg : g.applyMesh pow mesh quality = .ok g') :
    g'.Tiles width height := by
  obtain ⟨-, -, rfl⟩ := applyMesh_eq_ok_iff.mp hg
  refine ⟨h.xCuts, h.yCuts, ?_, ?_⟩
  · simpa [mapBlocks] using h.size_blocks
  · intro i hi
    have hlt : i < g.blocks.size := by simpa [mapBlocks] using hi
    have hplaced := h.placed i hlt
    simp only [mapBlocks, Array.getElem_mapIdx, Block.shape]
    exact ⟨spans_shape hplaced.x _ _ _, spans_shape hplaced.y _ _ _⟩

/-- A mesh of the right size shapes any grid whose blocks are large enough, and keeps its
tiling. -/
theorem exists_applyMesh {g : BlockGrid} {width height : Nat} (h : g.Tiles width height)
    (hside : g.requireSide sideMin = .ok ()) {mesh : RelevanceMesh}
    (hmesh : mesh.blocksW = g.blocksW ∧ mesh.blocksH = g.blocksH) (pow : Power) (quality : Nat) :
    ∃ g', g.applyMesh pow mesh quality = .ok g' ∧ g'.Tiles width height ∧
      g'.blocksW = g.blocksW ∧ g'.blocksH = g.blocksH ∧ g'.xBounds = g.xBounds ∧
        g'.yBounds = g.yBounds := by
  have hshaped := applyMesh_eq_ok_iff.mpr
    ⟨hmesh, hside, Eq.refl (g.mapBlocks fun column row b =>
      b.shape (mesh.blockCorners column row) (compressionFactor pow quality))⟩
  exact ⟨_, hshaped, tiles_applyMesh h hshaped, rfl, rfl, rfl, rfl⟩

end BlockGrid

end HopCodec
