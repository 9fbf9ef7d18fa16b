/-
Elastic cells partition a side.  Whatever the densities are, the boundaries rise strictly from `0`
to the length of the side, one cell per sample.
-/
import HopCodec.Block.Resample
import HopCodec.Proofs.Block.Grid
import HopCodec.Proofs.Plane

namespace HopCodec

variable {len left previous : Nat} {total acc : Float32} {weights : List Float32}

theorem length_placeBoundaries (h : left ≤ weights.length) :
    (placeBoundaries len total acc previous left weights).length = left + 1 := by
  induction left generalizing acc previous weights with
  | zero => rfl
  | succ left ih =>
      cases weights with
      | nil => simp at h
      | cons weight weights =>
          rw [placeBoundaries, List.length_cons, ih (Nat.le_of_succ_le_succ h)]

theorem placeBoundaries_last (h : left ≤ weights.length) :
    (placeBoundaries len total acc previous left weights).getD left 0 = len := by
  induction left generalizing acc previous weights with
  | zero => rfl
  | succ left ih =>
      cases weights with
      | nil => simp at h
      | cons weight weights =>
          rw [placeBoundaries, List.getD_cons_succ]
          exact ih (Nat.le_of_succ_le_succ h)

/-- With a pixel left for each cell to come, every boundary lies behind the one before it. -/
theorem placeBoundaries_rising (h : left ≤ weights.length) (hroom : previous + left < len) :
    strictlyRising (previous :: placeBoundaries len total acc previous left weights) = true := by
  induction left generalizing acc previous weights with
  | zero =>
      rw [placeBoundaries, strictlyRising, Bool.and_eq_true]
      exact ⟨decide_eq_true hroom, rfl⟩
  | succ left ih =>
      cases weights with
      | nil => simp at h
      | cons weight weights =>
          rw [placeBoundaries, strictlyRising, Bool.and_eq_true]
          constructor
          · rw [decide_eq_true_eq]
            omega
          · exact ih (Nat.le_of_succ_le_succ h) (by omega)

/-- Elastic cells cut the side into one piece per sample. -/
theorem cuts_elasticCells {side : Nat} (hpos : 0 < side) (hle : side ≤ len)
    (first last : Float32) : Cuts (elasticCells len side first last).toArray len side := by
  let weights := (List.range side).map (cellWeight side first last)
  let total := weights.foldl (· + ·) 0.0
  have hcells : elasticCells len side first last =
      0 :: placeBoundaries len total 0.0 0 (side - 1) weights := rfl
  have hweights : side - 1 ≤ weights.length := by simp [weights]
  have hlength : (elasticCells len side first last).length = side + 1 := by
    rw [hcells, List.length_cons, length_placeBoundaries hweights]
    omega
  have hrising : strictlyRising (0 :: placeBoundaries len total 0.0 0 (side - 1) weights) = true :=
    placeBoundaries_rising hweights (by omega)
  refine ⟨hlength, by rw [hcells]; rfl, ?_, ?_⟩
  · have hlast : (placeBoundaries len total 0.0 0 (side - 1) weights).getD (side - 1) 0 = len :=
      placeBoundaries_last hweights
    have hget : (elasticCells len side first last).getD side 0 = len := by
      rw [hcells, show side = side - 1 + 1 by omega, List.getD_cons_succ]
      exact hlast
    rw [getD_toArray, hget]
  · intro i hi
    rw [← hcells] at hrising
    exact rising_toArray hrising (by omega)

theorem fold_add_eq_sum (n : Nat) (f : Nat → Nat) :
    n.fold (fun i _ sum => sum + f i) 0 = ((List.range n).map f).sum := by
  induction n with
  | zero => rfl
  | succ n ih => rw [Nat.fold_succ, ih, List.range_succ, List.map_append, List.sum_append]; simp

theorem sumRange_eq_sum (start stop : Nat) (f : Nat → Nat) :
    sumRange start stop f = ((List.range (stop - start)).map fun i => f (start + i)).sum :=
  fold_add_eq_sum (stop - start) fun i => f (start + i)

theorem sumRange_congr {start stop : Nat} {f g : Nat → Nat}
    (h : ∀ i, start ≤ i → i < stop → f i = g i) :
    sumRange start stop f = sumRange start stop g := by
  rw [sumRange_eq_sum, sumRange_eq_sum]
  congr 1
  apply List.map_congr_left
  intro i hi
  have hlt : i < stop - start := List.mem_range.mp hi
  exact h _ (Nat.le_add_right _ _) (by omega)

theorem cellMean_congr {src src' : Bytes} {stride stride' left right top bottom : Nat}
    (h : ∀ x, left ≤ x → x < right → ∀ y, top ≤ y → y < bottom →
      src.getD (y * stride + x) 0 = src'.getD (y * stride' + x) 0) :
    cellMean src stride left right top bottom = cellMean src' stride' left right top bottom := by
  have hsum : (sumRange top bottom fun y =>
      sumRange left right fun x => (src.getD (y * stride + x) 0).toNat) =
        sumRange top bottom fun y =>
          sumRange left right fun x => (src'.getD (y * stride' + x) 0).toNat :=
    sumRange_congr fun y hy hy' => sumRange_congr fun x hx hx' =>
      congrArg UInt8.toNat (h x hx hx' y hy hy')
  simp only [cellMean, hsum]

namespace BlockCells

variable {c : BlockCells} {width height columns rows : Nat}

theorem columns_eq (hx : Cuts c.x.toArray width columns) : c.columns = columns := by
  rw [BlockCells.columns, ← List.size_toArray, hx.size, Nat.add_sub_cancel]

theorem rows_eq (hy : Cuts c.y.toArray height rows) : c.rows = rows := by
  rw [BlockCells.rows, ← List.size_toArray, hy.size, Nat.add_sub_cancel]

/-- The means of the cells depend on nothing outside the sides that the cells cut. -/
theorem downsample_congr (hx : Cuts c.x.toArray width columns)
    (hy : Cuts c.y.toArray height rows) {src src' : Bytes} {stride stride' : Nat}
    (h : ∀ x, x < width → ∀ y, y < height →
      src.getD (y * stride + x) 0 = src'.getD (y * stride' + x) 0) :
    c.downsample src stride = c.downsample src' stride' := by
  unfold downsample
  refine congrArg Array.ofFn (funext fun k => ?_)
  have hk : k.val < c.columns * c.rows := k.isLt
  have hright := hx.le_len (i := k % c.columns + 1)
    (columns_eq hx ▸ BlockGrid.mod_lt_of_lt_mul hk)
  have hbottom := hy.le_len (i := k / c.columns + 1) (rows_eq hy ▸ BlockGrid.div_lt_of_lt_mul hk)
  exact cellMean_congr fun x _ hx' y _ hy' =>
    h x (Nat.lt_of_lt_of_le hx' hright) y (Nat.lt_of_lt_of_le hy' hbottom)

end BlockCells

namespace Tap

theorem length_centres (bounds : List Nat) : (centres bounds).length = bounds.length - 1 := by
  induction bounds with
  | nil => rfl
  | cons a rest ih =>
      cases rest with
      | nil => rfl
      | cons b rest =>
          rw [centres, List.length_cons, ih]
          simp

/-- There is a centre behind the one found. -/
theorem lowerCentre_lt {centres : Array Float32} (position : Float32) {i : Nat}
    (h : i + 1 < centres.size) : lowerCentre centres position i + 1 < centres.size := by
  induction i using lowerCentre.induct centres position with
  | case1 i hmore ih =>
      rw [lowerCentre, if_pos hmore]
      exact ih hmore.1
  | case2 i hdone =>
      rw [lowerCentre, if_neg hdone]
      exact h

theorem ofPixel_lt {centres : Array Float32} (h : 0 < centres.size) (p : Nat) :
    (ofPixel centres p).lower < centres.size ∧ (ofPixel centres p).upper < centres.size := by
  unfold ofPixel
  by_cases hone : centres.size = 1
  · rw [if_pos hone]
    exact ⟨h, h⟩
  · rw [if_neg hone]
    have hsecond : 0 + 1 < centres.size := by omega
    have hlt := lowerCentre_lt (Single.ofNat p + 0.5) hsecond
    exact ⟨Nat.lt_of_succ_lt hlt, hlt⟩

end Tap

theorem Cuts.size_centres {bounds : Array Nat} {len side : Nat} (h : Cuts bounds len side) :
    (Tap.centres bounds.toList).toArray.size = side := by
  simp [Tap.length_centres, h.size]

theorem getLastD_of_cuts {bounds : Array Nat} {len side : Nat} (h : Cuts bounds len side) :
    bounds.toList.getLastD 0 = len := by
  rw [List.getLastD_eq_getLast?, List.getLast?_eq_getElem?, Array.length_toList, h.size]
  simpa [Array.getD_eq_getD_getElem?] using h.last

/-- Taps that reach for samples among `n`, one for each of `len` pixels. -/
structure Reaching (taps : Array Tap) (len n : Nat) : Prop where
  size : taps.size = len
  lower_lt : ∀ t ∈ taps, t.lower < n
  upper_lt : ∀ t ∈ taps, t.upper < n

/-- The tap of a pixel reaches for two of the samples. -/
theorem Cuts.ofPixel_lt {bounds : Array Nat} {len side p : Nat} (h : Cuts bounds len side)
    (hp : p < len) : (Tap.ofPixel (Tap.centres bounds.toList).toArray p).lower < side ∧
      (Tap.ofPixel (Tap.centres bounds.toList).toArray p).upper < side := by
  have hcount := h.size_centres
  obtain ⟨i, hi, -⟩ := h.exists_piece hp
  have hlt := Tap.ofPixel_lt (Nat.zero_lt_of_lt (hcount ▸ hi)) p
  rwa [hcount] at hlt

namespace Tap

/-- The tap of pixel `p` along an axis with the given cell boundaries. -/
def along (bounds : List Nat) (p : Nat) : Tap :=
  ofPixel (centres bounds).toArray p

theorem along_lt {bounds : List Nat} {len side p : Nat} (h : Cuts bounds.toArray len side)
    (hp : p < len) : (along bounds p).lower < side ∧ (along bounds p).upper < side :=
  h.ofPixel_lt hp

theorem getElem_ofBounds {bounds : List Nat} {p : Nat} (hp : p < (ofBounds bounds).size) :
    (ofBounds bounds)[p] = along bounds p := by
  simp [ofBounds, along]

end Tap

theorem reaching_ofBounds {bounds : Array Nat} {len side : Nat} (h : Cuts bounds len side) :
    Reaching (Tap.ofBounds bounds.toList) len side := by
  refine ⟨by rw [Tap.ofBounds, Array.size_ofFn, getLastD_of_cuts h], fun t ht => ?_, fun t ht => ?_⟩
  · obtain ⟨p, rfl⟩ := Array.mem_ofFn.mp ht
    exact (h.ofPixel_lt (getLastD_of_cuts h ▸ p.isLt)).1
  · obtain ⟨p, rfl⟩ := Array.mem_ofFn.mp ht
    exact (h.ofPixel_lt (getLastD_of_cuts h ▸ p.isLt)).2

namespace BlockCells

variable {c : BlockCells} {width height columns rows : Nat}
  (hcutX : Cuts c.x.toArray width columns) (hcutY : Cuts c.y.toArray height rows)

include hcutX hcutY

theorem size_upsample (samples : Bytes) : (c.upsample samples).size = width * height := by
  have hacross : (Tap.ofBounds c.x).size = width := (reaching_ofBounds hcutX).size
  have hdown : (Tap.ofBounds c.y).size = height := (reaching_ofBounds hcutY).size
  simp [upsample, hacross, hdown]

/-- A pixel lies between two of the stretched rows of samples. -/
theorem getElem?_upsample_rows (samples : Bytes) {x y : Nat} (hx : x < width) (hy : y < height) :
    (c.upsample samples)[y * width + x]? = some (Single.toPixel ((Tap.along c.y y).blend fun j =>
      (stretchRows samples columns rows (Tap.ofBounds c.x)).getD (j * width + x) 0.0)) := by
  have hacross : (Tap.ofBounds c.x).size = width := (reaching_ofBounds hcutX).size
  have hdown : (Tap.ofBounds c.y).size = height := (reaching_ofBounds hcutY).size
  have hy' : y < (Tap.ofBounds c.y).size := hdown ▸ hy
  obtain ⟨hlt, hcolumn, hrow⟩ := raster_index (hacross ▸ hx) hy'
  rw [upsample, columns_eq hcutX, rows_eq hcutY, ← hacross, Array.getElem?_ofFn, dif_pos hlt]
  simp only [hcolumn, hrow, Array.getElem?_eq_getElem hy', Tap.getElem_ofBounds]

end BlockCells

end HopCodec
