/-
Block grids on the machine.  As long as the products of sides and block counts fit into a word, no
operation on a grid traps, and the grids are the plain ones.
-/
import Mathlib.Algebra.Order.BigOperators.Group.List
import Mathlib.Algebra.Order.Group.Nat
import HopCodec.Machine.Grid
import HopCodec.Proofs.Frame.Assembly
import HopCodec.Proofs.Machine.Word

namespace HopCodec

/-- An axis between proper boundaries, within `len` pixels, with at least one sample and at most
one per pixel. -/
structure Axis.Within (a : Axis) (len : Nat) : Prop where
  start_le : a.start ≤ a.stop
  stop_le : a.stop ≤ len
  samples_pos : 0 < a.samples
  samples_le : a.samples ≤ a.length

theorem Axis.Within.length_le {a : Axis} {len : Nat} (h : a.Within len) : a.length ≤ len :=
  Nat.le_trans (Nat.sub_le _ _) h.stop_le

structure Block.Within (b : Block) (width height : Nat) : Prop where
  x : b.x.Within width
  y : b.y.Within height

theorem Axis.Spans.within {a : Axis} {start stop len : Nat} (h : a.Spans start stop)
    (hle : stop ≤ len) : a.Within len := by
  have hstop := h.start_add_length
  have hstop_eq := h.stop_eq
  exact ⟨by omega, by omega, h.samples_pos, h.samples_le⟩

theorem BlockGrid.Tiles.within {g : BlockGrid} {width height : Nat} (h : g.Tiles width height)
    {b : Block} (hb : b ∈ g.blocks.toList) : b.Within width height := by
  obtain ⟨i, hi, rfl⟩ := Array.mem_iff_getElem.mp (Array.mem_toList_iff.mp hb)
  have hplaced := h.placed i hi
  exact ⟨hplaced.x.within (h.xCuts.le_len (h.column_lt hi)),
    hplaced.y.within (h.yCuts.le_len (h.row_lt hi))⟩

theorem Block.Within.sampleCount_le {b : Block} {width height : Nat} (h : b.Within width height) :
    b.sampleCount ≤ width * height :=
  Nat.mul_le_mul (Nat.le_trans h.x.samples_le h.x.length_le)
    (Nat.le_trans h.y.samples_le h.y.length_le)

theorem BlockGrid.Tiles.sampleCount_le_mul {g : BlockGrid} {width height : Nat}
    (h : g.Tiles width height) : g.sampleCount ≤ g.blocksW * g.blocksH * (width * height) := by
  have hle := Machine.sum_map_le fun b hb => (h.within hb).sampleCount_le
  rwa [Array.length_toList, h.size_blocks, ← sampleCount_eq_sum] at hle

namespace Machine

theorem divCeil_eq {a b : Nat} (h : 0 < b) : divCeil a b = .ok (ceilDiv a b) :=
  if_neg (Nat.ne_of_gt h)

theorem axisFull_eq {start stop : Nat} (h : start ≤ stop) :
    axisFull start stop = .ok (Axis.full start stop) := by
  rw [axisFull, sub_eq h]
  rfl

theorem axisLength_eq {a : Axis} (h : a.start ≤ a.stop) : axisLength a = .ok a.length :=
  sub_eq h

theorem isReduced_eq {a : Axis} (h : a.start ≤ a.stop) : isReduced a = .ok a.isReduced := by
  rw [isReduced, axisLength_eq h]
  rfl

theorem isDownsampled_eq {b : Block} {width height : Nat} (h : b.Within width height) :
    isDownsampled b = .ok b.isDownsampled := by
  rw [isDownsampled, isReduced_eq h.x.start_le, ok_bind, isReduced_eq h.y.start_le]
  rfl

theorem isBelow_eq (side : Nat) {b : Block} {width height : Nat} (h : b.Within width height) :
    isBelow side b = .ok (b.width < side || b.height < side) := by
  rw [isBelow, axisLength_eq h.x.start_le, ok_bind, axisLength_eq h.y.start_le]
  rfl

theorem sampleCount_eq {b : Block} (h : b.sampleCount < wordSize) :
    sampleCount b = .ok b.sampleCount :=
  mul_eq h

theorem gridBoundaries_eq {len n : Nat} (hn : 0 < n) (hroom : n * len < wordSize) :
    gridBoundaries len n = .ok (HopCodec.gridBoundaries len n) := by
  refine mapM_eq fun i hi => ?_
  have hi : i < n + 1 := List.mem_range.mp hi
  have hle : i * len ≤ n * len := Nat.mul_le_mul_right len (Nat.le_of_lt_succ hi)
  rw [mul_eq (Nat.lt_of_le_of_lt hle hroom), ok_bind, div_eq hn]

namespace Grid

theorem blockAt_eq {xBounds yBounds : Array Nat} {blocksW blocksH column row : Nat}
    (hx : ∀ i, i < blocksW → xBounds.getD i 0 < xBounds.getD (i + 1) 0)
    (hy : ∀ i, i < blocksH → yBounds.getD i 0 < yBounds.getD (i + 1) 0)
    (hsizeX : xBounds.size = blocksW + 1) (hsizeY : yBounds.size = blocksH + 1)
    (hcount : blocksW * blocksH < wordSize) (hcolumn : column < blocksW) (hrow : row < blocksH) :
    blockAt xBounds yBounds column row = .ok (BlockGrid.blockAt xBounds yBounds column row) := by
  have hW : blocksW ≤ blocksW * blocksH := Nat.le_mul_of_pos_right _ (Nat.zero_lt_of_lt hrow)
  have hH : blocksH ≤ blocksW * blocksH := Nat.le_mul_of_pos_left _ (Nat.zero_lt_of_lt hcolumn)
  have hright : column + 1 < wordSize := by omega
  have hbelow : row + 1 < wordSize := by omega
  have hleft : column < xBounds.size := by omega
  have hleft' : column + 1 < xBounds.size := by omega
  have htop : row < yBounds.size := by omega
  have htop' : row + 1 < yBounds.size := by omega
  rw [blockAt, fetch_eq_getD hleft 0, ok_bind, add_eq hright, ok_bind, fetch_eq_getD hleft' 0,
    ok_bind, fetch_eq_getD htop 0, ok_bind, add_eq hbelow, ok_bind, fetch_eq_getD htop' 0, ok_bind,
    blockFull, axisFull_eq (Nat.le_of_lt (hx column hcolumn)), ok_bind,
    axisFull_eq (Nat.le_of_lt (hy row hrow))]
  rfl

theorem ofBounds_eq {blocksW blocksH : Nat} {xBounds yBounds : List Nat}
    (hsizeX : xBounds.length = blocksW + 1) (hsizeY : yBounds.length = blocksH + 1)
    (hcount : strictlyRising xBounds = true → strictlyRising yBounds = true →
      blocksW * blocksH < wordSize) :
    ofBounds blocksW blocksH xBounds yBounds =
      lift (BlockGrid.ofBounds blocksW blocksH xBounds yBounds) := by
  unfold ofBounds BlockGrid.ofBounds
  by_cases hrising : (strictlyRising xBounds && strictlyRising yBounds) = true
  · obtain ⟨hx, hy⟩ := Bool.and_eq_true_iff.mp hrising
    have hx' : ∀ i, i < blocksW → xBounds.toArray.getD i 0 < xBounds.toArray.getD (i + 1) 0 := by
      intro i hi
      exact rising_toArray hx (by omega)
    have hy' : ∀ i, i < blocksH → yBounds.toArray.getD i 0 < yBounds.toArray.getD (i + 1) 0 := by
      intro i hi
      exact rising_toArray hy (by omega)
    have hcount := hcount hx hy
    have hblocks : blocksBetween blocksW blocksH xBounds.toArray yBounds.toArray =
        .ok (Array.ofFn fun i : Fin (blocksW * blocksH) =>
          BlockGrid.blockAt xBounds.toArray yBounds.toArray (i % blocksW) (i / blocksW)) := by
      unfold blocksBetween
      rw [loop_grid (fun column row (blocks : Array Block) => do
        return blocks.push (← blockAt xBounds.toArray yBounds.toArray column row)),
        Nat.mul_comm blocksH]
      refine loop_push
        (f := fun i =>
          blockAt xBounds.toArray yBounds.toArray (i % blocksW) (i / blocksW))
        (g := fun i =>
          BlockGrid.blockAt xBounds.toArray yBounds.toArray (i % blocksW) (i / blocksW))
        fun i hi => ?_
      exact blockAt_eq hx' hy' hsizeX hsizeY hcount (BlockGrid.mod_lt_of_lt_mul hi)
        (BlockGrid.div_lt_of_lt_mul hi)
    rw [if_pos hrising, if_pos hrising, mul_eq hcount, ok_bind, hblocks]
    rfl
  · rw [if_neg hrising, if_neg hrising]
    rfl

theorem length_gridBoundaries (len n : Nat) : (HopCodec.gridBoundaries len n).length = n + 1 := by
  simp [HopCodec.gridBoundaries]

/-- Blocks of one pixel or more are so few that their number fits into a word. -/
theorem count_lt_wordSize {n len : Nat} (hcount : n ≤ len) (hroom : n * len < wordSize) :
    n < halfSize := by
  by_contra hlarge
  have hsquare := Nat.mul_le_mul (Nat.not_lt.mp hlarge) (Nat.le_trans (Nat.not_lt.mp hlarge) hcount)
  exact absurd hroom (Nat.not_lt.mpr hsquare)

theorem partition_eq {width height blocksW blocksH : Nat} (hwidth : blocksW * width < wordSize)
    (hheight : blocksH * height < wordSize) :
    partition width height blocksW blocksH =
      lift (BlockGrid.partition width height blocksW blocksH) := by
  unfold partition BlockGrid.partition
  by_cases hzero : blocksW = 0 ∨ blocksH = 0
  · rw [if_pos hzero, if_pos hzero]
    rfl
  · have hposW : 0 < blocksW := by omega
    have hposH : 0 < blocksH := by omega
    rw [if_neg hzero, if_neg hzero, gridBoundaries_eq hposW hwidth, ok_bind,
      gridBoundaries_eq hposH hheight, ok_bind]
    refine ofBounds_eq (length_gridBoundaries _ _) (length_gridBoundaries _ _) fun hx hy => ?_
    have hW := count_lt_wordSize (cuts_gridBoundaries hposW hx).count_le hwidth
    have hH := count_lt_wordSize (cuts_gridBoundaries hposH hy).count_le hheight
    exact Nat.mul_lt_mul'' hW hH

theorem subsampleAxis_eq {image source : Axis} {factor : Nat} (hfactor : 0 < factor)
    (himage : image.start ≤ image.stop) (hsource : source.start ≤ source.stop) :
    subsampleAxis image source factor = .ok (BlockGrid.subsampleAxis image source factor) := by
  rw [subsampleAxis, isReduced_eq hsource, ok_bind]
  cases hreduced : source.isReduced with
  | true =>
      rw [if_pos rfl, divCeil_eq hfactor, ok_bind, axisLength_eq himage]
      simp [BlockGrid.subsampleAxis, hreduced]
  | false => simp [BlockGrid.subsampleAxis, hreduced]

variable {g : BlockGrid} {width height : Nat}

theorem subsample_eq (h : g.Tiles width height) (hcount : g.blocks.size < wordSize)
    {factorX factorY : Nat} (hfactorX : 0 < factorX) (hfactorY : 0 < factorY) :
    subsample g factorX factorY = lift (g.subsample factorX factorY) := by
  have himage : ofBounds g.blocksW g.blocksH (g.xBounds.toList.map (ceilDiv · factorX))
      (g.yBounds.toList.map (ceilDiv · factorY)) = lift (g.image factorX factorY) :=
    ofBounds_eq (by simp [h.xCuts.size]) (by simp [h.yCuts.size]) fun _ _ => h.size_blocks ▸ hcount
  have hsample : g.subsample factorX factorY = (g.image factorX factorY >>= fun image =>
      .ok { image with
        blocks := image.blocks.zipWith
          (fun b source => ⟨BlockGrid.subsampleAxis b.x source.x factorX,
            BlockGrid.subsampleAxis b.y source.y factorY⟩) g.blocks }) := rfl
  unfold subsample
  rw [mapM_eq fun _ _ => divCeil_eq hfactorX, ok_bind, mapM_eq fun _ _ => divCeil_eq hfactorY,
    ok_bind, himage, hsample, lift_bind]
  cases hok : g.image factorX factorY with
  | error fault => rfl
  | ok image =>
      obtain ⟨⟨hx, hy⟩, -⟩ := BlockGrid.ofBounds_eq_ok_iff.mp hok
      have htiles := BlockGrid.tiles_ofBounds (cuts_map_ceilDiv h.xCuts hfactorX hx)
        (cuts_map_ceilDiv h.yCuts hfactorY hy) hok
      rw [lift_ok, ok_bind, ok_bind, mapM_eq (g := fun pair =>
        (⟨BlockGrid.subsampleAxis pair.1.x pair.2.x factorX,
          BlockGrid.subsampleAxis pair.1.y pair.2.y factorY⟩ : Block))]
      · rw [ok_bind, lift_ok, pure_eq_ok]
        congr 2
        apply Array.toList_inj.mp
        rw [Array.toList_zipWith, List.zip_eq_zipWith, List.map_zipWith]
      · rintro ⟨b, source⟩ hmem
        have hb := htiles.within (List.of_mem_zip hmem).1
        have hsource := h.within (List.of_mem_zip hmem).2
        simp only [subsampleAxis_eq hfactorX hb.x.start_le hsource.x.start_le, ok_bind,
          subsampleAxis_eq hfactorY hb.y.start_le hsource.y.start_le, pure_eq_ok]

theorem requireSide_eq (h : g.Tiles width height) (side : Nat) :
    requireSide g side = lift (g.requireSide side) := by
  rw [requireSide, anyM_eq fun b hb => isBelow_eq side (h.within hb), ok_bind, Array.any_toList]
  unfold BlockGrid.requireSide
  split <;> rfl

theorem totalSamples_eq {g : BlockGrid} (hroom : g.sampleCount < wordSize) :
    totalSamples g = .ok g.sampleCount := by
  have hsum := BlockGrid.sampleCount_eq_sum g
  have hcount : ∀ b ∈ g.blocks.toList, sampleCount b = .ok b.sampleCount := by
    intro b hb
    have hle : b.sampleCount ≤ (g.blocks.toList.map Block.sampleCount).sum :=
      List.le_sum_of_mem (List.mem_map_of_mem hb)
    exact sampleCount_eq (by omega)
  rw [totalSamples, foldlM_add_eq hcount (by omega), Nat.zero_add, ← hsum]

end Grid

end Machine

end HopCodec
