/-
Cutting planes evenly.  The boundaries of an axis are a whole quotient apart, or one pixel more, so
that there is a grid exactly when there are no more blocks than pixels and the blocks of a grid are
of nearly one size.  A tiling lists its blocks in raster order and has one for each pixel.
-/
import HopCodec.Proofs.Frame.Assembly

namespace HopCodec

/-- Each of `n + 1` boundaries is at least `side` behind the one before it. -/
def Spaced (side n : Nat) (bounds : Nat → Nat) : Prop :=
  ∀ i < n, bounds i + side ≤ bounds (i + 1)

namespace Spaced

variable {side n : Nat} {bounds : Nat → Nat}

theorem mono {side' : Nat} (h : Spaced side n bounds) (hle : side' ≤ side) :
    Spaced side' n bounds :=
  fun i hi => Nat.le_trans (Nat.add_le_add_left hle _) (h i hi)

theorem congr {bounds' : Nat → Nat} (heq : ∀ i ≤ n, bounds i = bounds' i) :
    Spaced side n bounds ↔ Spaced side n bounds' := by
  refine forall_congr' fun i => forall_congr' fun hi => ?_
  rw [heq i (Nat.le_of_lt hi), heq (i + 1) hi]

/-- A single piece is as long as the whole axis. -/
theorem one_iff : Spaced side 1 bounds ↔ bounds 0 + side ≤ bounds 1 := by
  constructor
  · exact fun h => h 0 Nat.zero_lt_one
  · intro h i hi
    obtain rfl := Nat.lt_one_iff.mp hi
    exact h

/-- The first and the last boundary are a side per piece apart. -/
theorem total (h : Spaced side n bounds) : bounds 0 + n * side ≤ bounds n := by
  induction n with
  | zero => simp
  | succ n ih =>
      have hbefore := ih fun i hi => h i (Nat.lt_succ_of_lt hi)
      have hstep := h n (Nat.lt_succ_self n)
      rw [Nat.succ_mul]
      omega

end Spaced

theorem strictlyRising_map_range_iff (bounds : Nat → Nat) (n : Nat) :
    strictlyRising ((List.range (n + 1)).map bounds) = true ↔ Spaced 1 n bounds := by
  have hget (k : Nat) (hk : k ≤ n) : ((List.range (n + 1)).map bounds).getD k 0 = bounds k := by
    have hlt : k < n + 1 := Nat.lt_succ_of_le hk
    simp [List.getD_eq_getElem?_getD, hlt]
  rw [strictlyRising_iff]
  simp only [List.length_map, List.length_range, Nat.add_lt_add_iff_right]
  refine forall_congr' fun i => forall_congr' fun hi => ?_
  rw [hget i (Nat.le_of_lt hi), hget (i + 1) hi]
  exact Nat.lt_iff_add_one_le

section Boundaries

variable {len n : Nat}

/-- A boundary is a quotient behind the one before it, or one pixel more. -/
theorem boundary_succ (hn : 0 < n) (len i : Nat) :
    i * len / n + len / n ≤ (i + 1) * len / n ∧
      (i + 1) * len / n ≤ i * len / n + (len / n + 1) := by
  rw [Nat.add_mul, Nat.one_mul, Nat.add_div hn]
  split <;> omega

theorem strictlyRising_gridBoundaries (hn : 0 < n) (hle : n ≤ len) :
    strictlyRising (gridBoundaries len n) = true := by
  rw [gridBoundaries, strictlyRising_map_range_iff]
  intro i _
  have hpiece : 1 ≤ len / n := (Nat.one_le_div_iff hn).mpr hle
  exact Nat.le_trans (Nat.add_le_add_left hpiece _) (boundary_succ hn len i).1

/-- A piece between boundaries is as long as a quotient, or one pixel longer. -/
theorem Axis.Spans.length_gridBoundaries {a : Axis} {i : Nat} (hi : i < n)
    (h : a.Spans ((gridBoundaries len n).toArray.getD i 0)
      ((gridBoundaries len n).toArray.getD (i + 1) 0)) :
    len / n ≤ a.length ∧ a.length ≤ len / n + 1 := by
  obtain ⟨hlow, hhigh⟩ := boundary_succ (Nat.zero_lt_of_lt hi) len i
  rw [← getD_gridBoundaries hi, ← getD_gridBoundaries (Nat.le_of_lt hi), ← h.start_eq,
    ← h.stop_eq] at hlow hhigh
  exact ⟨Nat.le_sub_of_add_le' hlow, Nat.sub_le_iff_le_add'.mpr hhigh⟩

end Boundaries

/-- The order in which blocks are stored: by rows, and from left to right within a row. -/
def Block.Precedes (a b : Block) : Prop :=
  a.y.start < b.y.start ∨ a.y.start = b.y.start ∧ a.x.start < b.x.start

namespace BlockGrid

/-- Blocks cover a plane: none is empty or goes beyond it, and each pixel lies in exactly one. -/
structure Covering (g : BlockGrid) (width height : Nat) : Prop where
  block_pos : ∀ b ∈ g.blocks, 0 < b.width ∧ 0 < b.height
  block_le : ∀ b ∈ g.blocks, b.x.stop ≤ width ∧ b.y.stop ≤ height
  pixel : ∀ x < width, ∀ y < height, ∃! i, ∃ h : i < g.blocks.size, g.blocks[i].Covers x y

namespace Tiles

variable {g : BlockGrid} {width height : Nat}

/-- The block in a column and a row is stored behind the rows above it. -/
theorem exists_block (h : g.Tiles width height) {column row : Nat} (hcolumn : column < g.blocksW)
    (hrow : row < g.blocksH) :
    ∃ i, ∃ hi : i < g.blocks.size, Placed g.xBounds g.yBounds column row g.blocks[i] := by
  obtain ⟨hlt, hmod, hdiv⟩ := raster_index hcolumn hrow
  rw [← h.size_blocks] at hlt
  have hplaced := h.placed _ hlt
  rw [hmod, hdiv] at hplaced
  exact ⟨_, hlt, hplaced⟩

/-- The blocks of a tiling cover its plane. -/
theorem covering (h : g.Tiles width height) : g.Covering width height where
  block_pos := by
    intro b hb
    obtain ⟨i, hi, rfl⟩ := Array.mem_iff_getElem.mp hb
    exact ⟨(h.placed i hi).x.length_pos, (h.placed i hi).y.length_pos⟩
  block_le := by
    intro b hb
    obtain ⟨i, hi, rfl⟩ := Array.mem_iff_getElem.mp hb
    exact ⟨(h.inside hi).x_le, (h.inside hi).y_le⟩
  pixel := by
    intro x hx y hy
    obtain ⟨column, hcolumn, hleft, hright⟩ := h.xCuts.exists_piece hx
    obtain ⟨row, hrow, htop, hbottom⟩ := h.yCuts.exists_piece hy
    obtain ⟨i, hi, hplaced⟩ := h.exists_block hcolumn hrow
    have hcovers : g.blocks[i].Covers x y := by
      unfold Block.Covers
      rw [hplaced.x.start_eq, hplaced.x.stop_eq, hplaced.y.start_eq, hplaced.y.stop_eq]
      exact ⟨⟨hleft, hright⟩, htop, hbottom⟩
    refine ⟨i, ⟨hi, hcovers⟩, ?_⟩
    rintro j ⟨hj, hcovers'⟩
    exact h.block_unique hj hi hcovers' hcovers

/-- The blocks of a tiling are stored in raster order. -/
theorem pairwise_precedes (h : g.Tiles width height) :
    g.blocks.toList.Pairwise Block.Precedes := by
  rw [List.pairwise_iff_getElem]
  intro i j hi hj hij
  rw [Array.length_toList] at hi hj
  rw [Array.getElem_toList, Array.getElem_toList]
  have hplaced := h.placed i hi
  have hplaced' := h.placed j hj
  unfold Block.Precedes
  rw [hplaced.x.start_eq, hplaced'.x.start_eq, hplaced.y.start_eq, hplaced'.y.start_eq]
  have hrows : i / g.blocksW ≤ j / g.blocksW := Nat.div_le_div_right (Nat.le_of_lt hij)
  rcases Nat.eq_or_lt_of_le hrows with hsame | habove
  · have hcolumns : i % g.blocksW < j % g.blocksW := by
      have hi' := Nat.div_add_mod i g.blocksW
      have hj' := Nat.div_add_mod j g.blocksW
      rw [hsame] at hi'
      omega
    exact .inr ⟨by rw [hsame], h.xCuts.lt_of_lt hcolumns (Nat.le_of_lt (h.column_lt hj))⟩
  · exact .inl (h.yCuts.lt_of_lt habove (Nat.le_of_lt (h.row_lt hj)))

end Tiles

section Partition

variable {width height blocksW blocksH : Nat}

/-- There is a grid exactly if there is a pixel for every column and row of blocks. -/
theorem exists_partition_iff :
    (∃ g, partition width height blocksW blocksH = .ok g) ↔
      (1 ≤ blocksW ∧ blocksW ≤ width) ∧ 1 ≤ blocksH ∧ blocksH ≤ height := by
  constructor
  · rintro ⟨g, hg⟩
    have htiles := tiles_partition hg
    obtain ⟨hW, hH⟩ := blocks_partition hg
    have hx := htiles.xCuts.count_le
    have hy := htiles.yCuts.count_le
    obtain ⟨⟨hposW, hposH⟩, -⟩ := partition_eq_ok_iff.mp hg
    rw [hW] at hx
    rw [hH] at hy
    exact ⟨⟨hposW, hx⟩, hposH, hy⟩
  · rintro ⟨⟨hposW, hleW⟩, hposH, hleH⟩
    exact ⟨_, partition_eq_ok_iff.mpr ⟨⟨hposW, hposH⟩, ofBounds_eq_ok_iff.mpr
      ⟨⟨strictlyRising_gridBoundaries hposW hleW, strictlyRising_gridBoundaries hposH hleH⟩,
        rfl⟩⟩⟩

/-- All blocks of a plane are a quotient wide and high, or one pixel more. -/
theorem sides_partition {g : BlockGrid} (hg : partition width height blocksW blocksH = .ok g)
    {b : Block} (hb : b ∈ g.blocks) :
    (width / blocksW ≤ b.width ∧ b.width ≤ width / blocksW + 1) ∧
      height / blocksH ≤ b.height ∧ b.height ≤ height / blocksH + 1 := by
  have htiles := tiles_partition hg
  obtain ⟨i, hi, rfl⟩ := Array.mem_iff_getElem.mp hb
  have hplaced := htiles.placed i hi
  have hcolumn := htiles.column_lt hi
  have hrow := htiles.row_lt hi
  obtain ⟨-, rfl⟩ := ofBounds_eq_ok_iff.mp (partition_eq_ok_iff.mp hg).2
  exact ⟨hplaced.x.length_gridBoundaries hcolumn, hplaced.y.length_gridBoundaries hrow⟩

end Partition

end BlockGrid

end HopCodec
