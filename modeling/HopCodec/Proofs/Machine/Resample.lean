/-
Resampling on the machine.  Cells rise strictly within their side, so no mean divides by zero and
no tap reaches beyond the samples.
-/
import HopCodec.Machine.Resample
import HopCodec.Proofs.Block.Cells
import HopCodec.Proofs.Machine.Grid

namespace HopCodec

theorem sum_range_le {f : Nat → Nat} {most : Nat} (n : Nat) (h : ∀ i, i < n → f i ≤ most) :
    ((List.range n).map f).sum ≤ n * most := by
  have hle := Machine.sum_map_le fun i hi => h i (List.mem_range.mp hi)
  rwa [List.length_range] at hle

theorem toList_extract (src : Bytes) {start n : Nat} (h : start + n ≤ src.size) :
    (src.extract start (start + n)).toList =
      (List.range n).map fun i => src.getD (start + i) 0 := by
  apply List.ext_getElem
  · simp
    omega
  · intro i hi _
    have hlt : i < n := by
      simp only [Array.length_toList, Array.size_extract] at hi
      omega
    have hsrc : start + i < src.size := by omega
    simp [Array.getD_eq_getD_getElem?, hsrc]

namespace Machine

open Single

/-- Sides of a plane are small enough for sums of products of them. -/
def Modest (n : Nat) : Prop :=
  n ≤ FrameHeader.dimensionMax

theorem Modest.mul_lt {m n : Nat} (hm : Modest m) (hn : Modest n) : m * n ≤ 0x40000000 :=
  Nat.mul_le_mul hm hn

theorem Modest.le {n : Nat} (h : Modest n) : n ≤ 0x8000 :=
  h

theorem sumRange_le {left right most : Nat} {f : Nat → Nat} (h : ∀ i, f i ≤ most) :
    sumRange left right f ≤ (right - left) * most := by
  rw [sumRange_eq_sum]
  exact sum_range_le _ fun i _ => h (left + i)

section Mean

variable {src : Bytes} {stride left right top bottom y : Nat}

/-- The sum of the pixels `[left, right)` of a row. -/
def rowTotal (src : Bytes) (stride left right y : Nat) : Nat :=
  sumRange left right fun x => (src.getD (y * stride + x) 0).toNat

theorem rowTotal_le (src : Bytes) (stride left right y : Nat) :
    rowTotal src stride left right y ≤ (right - left) * 255 :=
  sumRange_le fun _ => Nat.le_of_lt_succ (UInt8.toNat_lt _)

theorem rowSum_eq (hsize : src.size < wordSize) (hlr : left ≤ right) (hright : Modest right)
    (hrow : y * stride + right ≤ src.size) :
    rowSum src stride left right y = .ok (rowTotal src stride left right y) := by
  have hword : (0x40000000 : Nat) < wordSize := by decide
  have hpart : (src.extract (y * stride) src.size).extract left right =
      src.extract (y * stride + left) (y * stride + left + (right - left)) := by
    rw [Array.extract_extract]
    congr 1
    omega
  have hsum : (((List.range (right - left)).map fun i =>
      src.getD (y * stride + left + i) 0).map UInt8.toNat).sum =
        rowTotal src stride left right y := by
    rw [rowTotal, sumRange_eq_sum, List.map_map]
    congr 1
    apply List.map_congr_left
    intro i _
    simp [Nat.add_assoc]
  have hle := rowTotal_le src stride left right y
  have hbound := hright.le
  rw [rowSum, mul_eq (by omega), ok_bind, slice_eq (by omega) (Nat.le_refl _), ok_bind,
    slice_eq hlr (by rw [Array.size_extract]; omega), ok_bind, hpart,
    toList_extract src (by omega), foldlM_add (by rw [hsum]; omega), hsum, Nat.zero_add]

/-- The sum of the pixels of a rectangle with modest sides fits a word. -/
theorem sum_rowTotal_le (src : Bytes) (stride left top : Nat) (hright : Modest right) {k : Nat}
    (hk : Modest k) :
    k.fold (fun i _ sum => sum + rowTotal src stride left right (top + i)) 0 ≤
      0x8000 * (0x8000 * 255) := by
  have hwidth : right - left ≤ 0x8000 := Nat.le_trans (Nat.sub_le _ _) hright
  have hrow (y : Nat) : rowTotal src stride left right y ≤ 0x8000 * 255 :=
    Nat.le_trans (rowTotal_le _ _ _ _ _) (Nat.mul_le_mul_right 255 hwidth)
  rw [fold_add_eq_sum]
  exact Nat.le_trans (sum_range_le k fun i _ => hrow (top + i)) (Nat.mul_le_mul_right _ hk)

/-- Adding the rows of a rectangle up. -/
theorem loop_rowSum_eq (hsize : src.size < wordSize) (hlr : left ≤ right) (hright : Modest right)
    (hbottom : Modest bottom) (hrows : ∀ y < bottom, y * stride + right ≤ src.size) :
    loop (fun i sum => do add sum (← rowSum src stride left right (← add top i)))
        (bottom - top) 0 =
      .ok (sumRange top bottom (rowTotal src stride left right)) := by
  have hword : (0x8000 * (0x8000 * 255) : Nat) < wordSize := by decide
  have hbound := hbottom.le
  refine loop_eq (f := fun k =>
    k.fold (fun i _ sum => sum + rowTotal src stride left right (top + i)) 0) fun i hi => ?_
  have hmodest : Modest (i + 1) := Nat.le_trans (by omega) hbottom
  have hnext := sum_rowTotal_le src stride left top hright hmodest
  rw [Nat.fold_succ] at hnext
  rw [add_eq (by omega), ok_bind,
    rowSum_eq hsize hlr hright (hrows (top + i) (by omega)), ok_bind, Nat.fold_succ]
  exact add_eq (by omega)

theorem cellMean_eq (hsize : src.size < wordSize) (hlr : left < right) (htb : top < bottom)
    (hright : Modest right) (hbottom : Modest bottom)
    (hrows : ∀ y < bottom, y * stride + right ≤ src.size) :
    cellMean src stride left right top bottom =
      .ok (HopCodec.cellMean src stride left right top bottom) := by
  have hword : (0x8000 * (0x8000 * 255) + 0x40000000 : Nat) < wordSize := by decide
  have hwidth : Modest (right - left) := Nat.le_trans (Nat.sub_le _ _) hright
  have hheight : Modest (bottom - top) := Nat.le_trans (Nat.sub_le _ _) hbottom
  have hcount := hheight.mul_lt hwidth
  have hpos : 0 < (bottom - top) * (right - left) := Nat.mul_pos (by omega) (by omega)
  have hsum : sumRange top bottom (rowTotal src stride left right) ≤ 0x8000 * (0x8000 * 255) :=
    sum_rowTotal_le src stride left top hright hheight
  rw [cellMean, loop_rowSum_eq hsize (Nat.le_of_lt hlr) hright hbottom hrows, ok_bind,
    sub_eq (Nat.le_of_lt htb), ok_bind, sub_eq (Nat.le_of_lt hlr), ok_bind, mul_eq (by omega),
    ok_bind, add_eq (by omega), ok_bind, div_eq hpos]
  rfl

end Mean

theorem placeCells_eq {len side left k previous : Nat} {total acc : Float32}
    {weights : List Float32} {bounds : Array Nat} (hweights : left ≤ weights.length)
    (hsize : bounds.size = k + 1) (hlast : bounds.getD k 0 = previous) (hk : k + left + 1 = side)
    (hroom : previous + left < len) (hlen : len < wordSize) :
    placeCells len side total k acc (weights.take left) bounds =
      .ok (bounds ++ (placeBoundaries len total acc previous left weights).toArray) := by
  induction left generalizing k previous acc weights bounds with
  | zero =>
      rw [List.take_zero, placeCells, placeBoundaries, Array.push_eq_append]
  | succ left ih =>
      cases weights with
      | nil => simp at hweights
      | cons weight weights =>
          have hk' : k < bounds.size := by omega
          have hlimit : sub len (side - 1 - k) = .ok (len - (left + 1)) := by
            rw [sub_eq (by omega)]
            congr 2
            omega
          let boundary := min (max (roundNat (ofNat len * (acc + weight) / total)) (previous + 1))
            (len - (left + 1))
          have hsize' : (bounds.push boundary).size = k + 1 + 1 := by simp [hsize]
          have hlast' : (bounds.push boundary).getD (k + 1) 0 = boundary := by
            simp [Array.getD_eq_getD_getElem?, ← hsize]
          have hroom' : boundary + left < len := by
            have hle : boundary ≤ len - (left + 1) := Nat.min_le_right _ _
            omega
          have hrest : placeCells len side total (k + 1) (acc + weight) (weights.take left)
              (bounds.push boundary) = .ok (bounds.push boundary ++
                (placeBoundaries len total (acc + weight) boundary left weights).toArray) :=
            ih (Nat.le_of_succ_le_succ hweights) hsize' hlast' (by omega) hroom'
          rw [List.take_succ_cons, placeCells, fetch_eq_getD hk' 0, ok_bind, hlast,
            add_eq (by omega), ok_bind, sub_eq (by omega), ok_bind, sub_eq (by omega), ok_bind,
            hlimit, ok_bind, hrest, placeBoundaries]
          simp [boundary]

theorem elasticCells_eq {len side : Nat} (hpos : 0 < side) (hle : side ≤ len)
    (hlen : len < wordSize) (hside : side + 1 < wordSize) (first last : Float32) :
    elasticCells len side first last = .ok (HopCodec.elasticCells len side first last).toArray := by
  have hweights : side - 1 ≤ ((List.range side).map (cellWeight side first last)).length := by
    simp
  have hstart : (#[0] : Array Nat).getD 0 0 = 0 := rfl
  rw [elasticCells, ensure_eq ⟨hpos, hle⟩, ok_bind, add_eq hside, ok_bind, sub_eq hpos, ok_bind,
    placeCells_eq hweights rfl hstart (by omega) (by omega) hlen]
  simp [HopCodec.elasticCells]

theorem axisCells_eq {a : Axis} {len : Nat} (h : a.Within len) (hlen : Modest len)
    (direction : Direction) : axisCells a direction = .ok (a.cells direction).toArray := by
  have hword : (0x8000 + 1 : Nat) < wordSize := by decide
  have hlength : a.length ≤ 0x8000 := Nat.le_trans h.length_le hlen.le
  have hsamples : a.samples ≤ 0x8000 := Nat.le_trans h.samples_le hlength
  rw [axisCells, axisLength_eq h.start_le]
  exact elasticCells_eq h.samples_pos h.samples_le (by omega) (by omega) _ _

/-- The cells of an axis cut it into one piece per sample. -/
theorem cuts_cells {a : Axis} {len : Nat} (h : a.Within len) (direction : Direction) :
    Cuts (a.cells direction).toArray a.length a.samples :=
  cuts_elasticCells h.samples_pos h.samples_le _ _

namespace Cells

/-- The same cells in the form that the plain codec uses. -/
def plain (c : Cells) : BlockCells :=
  ⟨c.x.toList, c.y.toList⟩

theorem ofBlock_eq {b : Block} {width height : Nat} (h : b.Within width height)
    (hwidth : Modest width) (hheight : Modest height) :
    ofBlock b = .ok ⟨(b.x.cells .horizontal).toArray, (b.y.cells .vertical).toArray⟩ := by
  rw [ofBlock, axisCells_eq h.x hwidth, ok_bind, axisCells_eq h.y hheight]
  rfl

theorem columns_eq {c : Cells} {len n : Nat} (h : Cuts c.x len n) : c.columns = .ok n := by
  rw [columns, sub_eq (by rw [h.size]; exact Nat.le_add_left 1 n), h.size, Nat.add_sub_cancel]

theorem rows_eq {c : Cells} {len n : Nat} (h : Cuts c.y len n) : c.rows = .ok n := by
  rw [rows, sub_eq (by rw [h.size]; exact Nat.le_add_left 1 n), h.size, Nat.add_sub_cancel]

theorem plain_columns {c : Cells} {len n : Nat} (h : Cuts c.x len n) : c.plain.columns = n := by
  simp [plain, BlockCells.columns, h.size]

theorem plain_rows {c : Cells} {len n : Nat} (h : Cuts c.y len n) : c.plain.rows = n := by
  simp [plain, BlockCells.rows, h.size]

end Cells

section Downsample

variable {c : Cells} {width height columns rows stride : Nat} {src dst : Bytes}
  (hx : Cuts c.x width columns) (hy : Cuts c.y height rows) (hwidth : Modest width)
  (hheight : Modest height) (hcolumns : columns ≤ width) (hrows : rows ≤ height)
  (hsrc : src.size < wordSize) (hfits : ∀ y, y < height → y * stride + width ≤ src.size)

def Cells.mean (c : Cells) (src : Bytes) (stride i j : Nat) : UInt8 :=
  HopCodec.cellMean src stride (c.x.getD i 0) (c.x.getD (i + 1) 0) (c.y.getD j 0)
    (c.y.getD (j + 1) 0)

include hx hy hwidth hheight hrows hsrc hfits

/-- One cell has its mean put into its place. -/
theorem downsampleCell_eq {i j : Nat} (hi : i < columns) (hj : j < rows)
    (hplace : j * columns + i < dst.size) (hdst : dst.size < wordSize) :
    downsampleCell c src stride columns i j dst =
      .ok (dst.setIfInBounds (j * columns + i) (c.mean src stride i j)) := by
  have hword : (0x40000000 : Nat) < wordSize := by decide
  have hbound := hwidth.le
  have hbound' := hheight.le
  have hsizeX := hx.size
  have hsizeY := hy.size
  have hright := hx.le_len (i := i + 1) hi
  have hbottom := hy.le_len (i := j + 1) hj
  have hmean : cellMean src stride (c.x.getD i 0) (c.x.getD (i + 1) 0) (c.y.getD j 0)
      (c.y.getD (j + 1) 0) = .ok (c.mean src stride i j) :=
    cellMean_eq hsrc (hx.rising _ hi) (hy.rising _ hj) (Nat.le_trans hright hwidth)
      (Nat.le_trans hbottom hheight) fun y hlt =>
        Nat.le_trans (Nat.add_le_add_left hright _) (hfits y (by omega))
  rw [downsampleCell, fetch_eq_getD (by omega) 0, ok_bind, add_eq (by omega), ok_bind,
    fetch_eq_getD (by omega) 0, ok_bind, fetch_eq_getD (by omega) 0, ok_bind,
    add_eq (by omega), ok_bind, fetch_eq_getD (by omega) 0, ok_bind, hmean, ok_bind,
    mul_eq (by omega), ok_bind, add_eq (by omega), ok_bind, store_eq hplace]

include hcolumns

/-- Every cell has its mean put into its place. -/
theorem downsample_eq (hdst : dst.size = columns * rows) :
    downsample c src stride dst = .ok (c.plain.downsample src stride) := by
  have hword : (0x40000000 : Nat) < wordSize := by decide
  have hareas := hwidth.mul_lt hheight
  have hcells : columns * rows ≤ width * height := Nat.mul_le_mul hcolumns hrows
  have hsize : dst.size = rows * columns := by rw [hdst, Nat.mul_comm]
  have hloop : loop (fun j => loop (fun i => downsampleCell c src stride columns i j) columns)
      rows dst = .ok (dst.mapIdx fun k _ => c.mean src stride (k % columns) (k / columns)) := by
    refine loop_rows (f := fun i j => downsampleCell c src stride columns i j) hsize
      (fun _ _ _ _ => rfl) fun k hk s hs _ => ?_
    have hk' : k < columns * rows := hdst ▸ hk
    have hplace : k / columns * columns + k % columns = k := Nat.div_add_mod' k columns
    rw [downsampleCell_eq hx hy hwidth hheight hrows hsrc hfits
      (BlockGrid.mod_lt_of_lt_mul hk') (BlockGrid.div_lt_of_lt_mul hk')
      (by rw [hplace, hs]; exact hk) (by omega), hplace]
  rw [downsample, Cells.columns_eq hx, ok_bind, Cells.rows_eq hy, ok_bind, hloop]
  rw [BlockCells.downsample]
  simp only [Cells.plain_columns hx]
  congr 1
  apply Array.ext
  · rw [Array.size_mapIdx, Array.size_ofFn, Cells.plain_rows hy, hdst, Cells.plain_columns hx]
  · intro k hk _
    simp [Cells.mean, Cells.plain]

end Downsample

theorem centres_eq {bounds : List Nat} {len : Nat} (h : strictlyRising bounds = true)
    (hle : ∀ b ∈ bounds, b ≤ len) (hlen : Modest len) :
    centres bounds = .ok (Tap.centres bounds) := by
  have hword : (0x10000 : Nat) < wordSize := by decide
  have hbound := hlen.le
  induction bounds with
  | nil => rfl
  | cons a rest ih =>
      cases rest with
      | nil => rfl
      | cons b rest =>
          rw [strictlyRising, Bool.and_eq_true] at h
          have ha := hle a List.mem_cons_self
          have hb := hle b (List.mem_cons_of_mem a List.mem_cons_self)
          rw [centres, add_eq (by omega), ok_bind,
            ih h.2 fun c hc => hle c (List.mem_cons_of_mem a hc)]
          rfl

/-- The search ends before it runs out of centres. -/
theorem lowerCentre_eq {centres : Array Float32} (position : Float32) {i fuel : Nat}
    (hsize : centres.size ≤ 0x8000) (hi : i < centres.size) (hfuel : centres.size ≤ i + fuel) :
    lowerCentre centres position fuel i = .ok (Tap.lowerCentre centres position i) := by
  have hword : (0x10000 : Nat) < wordSize := by decide
  induction fuel generalizing i with
  | zero => omega
  | succ fuel ih =>
      rw [lowerCentre, Tap.lowerCentre]
      by_cases hmore : i + 2 < centres.size
      · have hnext : i + 1 < centres.size := Nat.lt_of_succ_lt hmore
        rw [add_eq (by omega), ok_bind, if_pos hmore, add_eq (by omega), ok_bind,
          fetch_eq_getD hnext 0.0, ok_bind]
        by_cases hreached : centres.getD (i + 1) 0.0 ≤ position
        · rw [if_pos hreached, if_pos ⟨hmore, hreached⟩, ok_bind]
          exact ih hnext (by omega)
        · rw [if_neg hreached, if_neg fun h => hreached h.2]
          rfl
      · rw [add_eq (by omega), ok_bind, if_neg hmore, if_neg fun h => hmore h.1]
        rfl

theorem tapOfPixel_eq {side : Nat} {centres : Array Float32} (hsize : centres.size = side)
    (hpos : 0 < side) (hside : Modest side) (p : Nat) :
    tapOfPixel side centres p = .ok (Tap.ofPixel centres p) := by
  have hword : (0x10000 : Nat) < wordSize := by decide
  have hbound := hside.le
  rw [tapOfPixel, Tap.ofPixel, hsize]
  by_cases hone : side = 1
  · rw [if_pos hone, if_pos hone]
    rfl
  · let i := Tap.lowerCentre centres (ofNat p + 0.5) 0
    have hbehind : i + 1 < centres.size := Tap.lowerCentre_lt _ (by omega)
    have hhere : i < centres.size := Nat.lt_of_succ_lt hbehind
    have hlower : lowerCentre centres (ofNat p + 0.5) (side + 1) 0 = .ok i :=
      lowerCentre_eq _ (by omega) (by omega) (by omega)
    have hnext : add i 1 = .ok (i + 1) := add_eq (by omega)
    rw [if_neg hone, if_neg hone]
    simp only [hlower, hnext, fetch_eq_getD hhere 0.0, fetch_eq_getD hbehind 0.0, ok_bind]
    rw [clamp_eq (by decide)]
    rfl

theorem taps_eq {bounds : Array Nat} {len side : Nat} (h : Cuts bounds len side)
    (hlen : Modest len) (hside : Modest side) :
    taps bounds = .ok (Tap.ofBounds bounds.toList) := by
  have hsize := h.size
  have hlast : bounds.getD side 0 = len := h.last
  have hcount : (Tap.centres bounds.toList).toArray.size = side := h.size_centres
  have hrising : strictlyRising bounds.toList = true := by
    rw [strictlyRising_iff]
    intro i hi
    rw [← getD_toArray, ← getD_toArray]
    exact h.rising i (by simpa [hsize] using hi)
  have hwithin : ∀ b ∈ bounds.toList, b ≤ len := by
    intro b hb
    obtain ⟨i, hi, rfl⟩ := Array.mem_iff_getElem.mp (Array.mem_toList_iff.mp hb)
    have hle := h.le_len (i := i) (by omega)
    simpa [Array.getD_eq_getD_getElem?, hi] using hle
  have htap (p : Nat) (hp : p ∈ List.range len) :
      tapOfPixel side (Tap.centres bounds.toList).toArray p =
        .ok (Tap.ofPixel (Tap.centres bounds.toList).toArray p) := by
    obtain ⟨i, hi, -⟩ := h.exists_piece (List.mem_range.mp hp)
    exact tapOfPixel_eq hcount (Nat.zero_lt_of_lt hi) hside p
  rw [taps, sub_eq (by omega), ok_bind, hsize, Nat.add_sub_cancel, fetch_eq_getD (by omega) 0,
    ok_bind, hlast, centres_eq hrising hwithin hlen, ok_bind,
    mapM_eq htap, ok_bind, Tap.ofBounds, getLastD_of_cuts h, pure_eq_ok]
  congr 1
  apply Array.ext <;> simp

section Stretch

variable {samples : Bytes} {taps : Array Tap} {columns rows width : Nat}

def sampleRow (samples : Bytes) (columns j : Nat) : Bytes :=
  samples.extract (j * columns) ((j + 1) * columns)

/-- The value that is put into column `x` of the stretched row `j`. -/
def stretchedAt (samples : Bytes) (columns : Nat) (taps : Array Tap) (x j : Nat) : Float32 :=
  (taps.getD x ⟨0, 0, 0.0⟩).blend fun i => (samples.getD (j * columns + i) 0).toFloat32

section Row

variable {j : Nat} (hsamples : samples.size = columns * rows) (hj : j < rows)

include hsamples hj

theorem row_le_size_samples : (j + 1) * columns ≤ samples.size := by
  rw [hsamples, Nat.mul_comm columns]
  exact Nat.mul_le_mul_right columns hj

theorem size_sampleRow : (sampleRow samples columns j).size = columns := by
  have hend := row_le_size_samples hsamples hj
  simp only [sampleRow, Array.size_extract, Nat.succ_mul] at hend ⊢
  omega

theorem getD_sampleRow {i : Nat} (hi : i < columns) :
    (sampleRow samples columns j).getD i 0 = samples.getD (j * columns + i) 0 := by
  have hend := row_le_size_samples hsamples hj
  have hlt : i < (sampleRow samples columns j).size := by rwa [size_sampleRow hsamples hj]
  have hlt' : j * columns + i < samples.size := by
    rw [Nat.succ_mul] at hend
    omega
  rw [Array.getD_eq_getD_getElem?, Array.getElem?_eq_getElem hlt,
    Array.getD_eq_getD_getElem?, Array.getElem?_eq_getElem hlt']
  simp [sampleRow]

/-- One sample is put between two samples of its row. -/
theorem stretchPixel_eq (h : Reaching taps width columns) {x : Nat} (hx : x < width)
    {out : Array Float32} (hplace : j * width + x < out.size) (hout : out.size < wordSize) :
    stretchPixel (sampleRow samples columns j) taps width j x out =
      .ok (out.setIfInBounds (j * width + x) (stretchedAt samples columns taps x j)) := by
  have htaps : x < taps.size := h.size ▸ hx
  have hmem : taps.getD x ⟨0, 0, 0.0⟩ ∈ taps := by
    simp [Array.getD_eq_getD_getElem?, htaps]
  have hlower := h.lower_lt _ hmem
  have hupper := h.upper_lt _ hmem
  have hline := size_sampleRow hsamples hj
  rw [stretchPixel, fetch_eq_getD htaps ⟨0, 0, 0.0⟩, ok_bind,
    fetch_eq_getD (by omega) 0, ok_bind, fetch_eq_getD (by omega) 0, ok_bind, mul_eq (by omega), ok_bind, add_eq (by omega), ok_bind, store_eq hplace,
    getD_sampleRow hsamples hj hlower, getD_sampleRow hsamples hj hupper]
  rfl

end Row

theorem stretchRow_eq {j : Nat} (hsamples : samples.size = columns * rows) (hj : j < rows)
    (hroom : samples.size < wordSize) (hcount : rows < wordSize) (out : Array Float32) :
    stretchRow samples taps columns width j out =
      loop (stretchPixel (sampleRow samples columns j) taps width j) width out := by
  have hend := row_le_size_samples hsamples hj
  have hstart : j * columns ≤ (j + 1) * columns := Nat.mul_le_mul_right columns (Nat.le_succ j)
  rw [stretchRow, mul_eq (by omega), ok_bind, add_eq (by omega), ok_bind, mul_eq (by omega),
    ok_bind, slice_eq hstart hend]
  rfl

theorem stretched_eq (h : Reaching taps width columns) (hsamples : samples.size = columns * rows)
    (hcolumns : columns ≤ width) (hwidth : Modest width) (hrows : Modest rows) :
    loop (stretchRow samples taps columns width) rows (Array.replicate (rows * width) 0.0) =
      .ok (stretchRows samples columns rows taps) := by
  have hword : (0x40000000 + 0x8000 : Nat) < wordSize := by decide
  have hbound := hrows.le
  have harea := hrows.mul_lt hwidth
  have hcells : columns * rows ≤ rows * width := by
    rw [Nat.mul_comm]
    exact Nat.mul_le_mul_left rows hcolumns
  let zeros : Array Float32 := Array.replicate (rows * width) 0.0
  have hzeros : zeros.size = rows * width := Array.size_replicate
  have hloop : loop (stretchRow samples taps columns width) rows zeros =
      .ok (zeros.mapIdx fun k _ => stretchedAt samples columns taps (k % width) (k / width)) := by
    refine loop_rows (f := fun x j => stretchPixel (sampleRow samples columns j) taps width j x)
      hzeros (fun j hj out _ => stretchRow_eq hsamples hj (by omega) (by omega) out)
      fun k hk out hout _ => ?_
    have hk' : k < width * rows := by rw [Nat.mul_comm, ← hzeros]; exact hk
    have hplace : k / width * width + k % width = k := Nat.div_add_mod' k width
    rw [stretchPixel_eq hsamples (BlockGrid.div_lt_of_lt_mul hk') h
      (BlockGrid.mod_lt_of_lt_mul hk') (by rw [hplace, hout]; exact hk) (by omega), hplace]
  refine hloop.trans (congrArg Except.ok ?_)
  apply Array.ext
  · simp [stretchRows, hzeros, h.size]
  · intro k hk _
    rw [Array.size_mapIdx, hzeros, Nat.mul_comm] at hk
    have hx : k % width < taps.size := by rw [h.size]; exact BlockGrid.mod_lt_of_lt_mul hk
    have htap : taps[k % width]? = some taps[k % width] := Array.getElem?_eq_getElem hx
    simp [stretchRows, stretchedAt, h.size, htap]

end Stretch

section Blend

variable {rows : Array Float32} {taps : Array Tap} {width height stride count : Nat}
  {dst pixels : Bytes}

/-- The pixels that lie between two rows of samples each. -/
def Blends (rows : Array Float32) (taps : Array Tap) (width height : Nat) (pixels : Bytes) : Prop :=
  ∀ y < height, ∀ x < width, pixels.getD (y * width + x) 0 =
    toPixel ((taps.getD y ⟨0, 0, 0.0⟩).blend fun j => rows.getD (j * width + x) 0.0)

/-- Row `y` of pixels is put between two rows of samples. -/
theorem blendRow_eq (h : Reaching taps height count) (hrows : rows.size = count * width)
    (hcells : count * width < wordSize) (hpixels : Blends rows taps width height pixels) {y : Nat}
    (hy : y < height) (hdst : dst.size < wordSize) (hroom : y * stride + width ≤ dst.size) :
    blendRow rows taps width stride y
        ((⟨width, height, stride⟩ : Window).scatterTo dst 0 pixels (y * width)) =
      .ok ((⟨width, height, stride⟩ : Window).scatterTo dst 0 pixels ((y + 1) * width)) := by
  let w : Window := ⟨width, height, stride⟩
  have hsize (n : Nat) : (w.scatterTo dst 0 pixels n).size = dst.size :=
    Window.size_scatterTo _ _ _ _ _
  have htap : taps.getD y ⟨0, 0, 0.0⟩ ∈ taps := by
    have hlt : y < taps.size := h.size ▸ hy
    simp [Array.getD_eq_getD_getElem?, hlt]
  have hreach (j : Nat) (hj : j < count) : j * width + width ≤ count * width := by
    rw [← Nat.succ_mul]
    exact Nat.mul_le_mul_right width hj
  have hlower := hreach _ (h.lower_lt _ htap)
  have hupper := hreach _ (h.upper_lt _ htap)
  have hloop : loop (fun x => blendPixel rows (taps.getD y ⟨0, 0, 0.0⟩) width (y * stride) x) width
      (w.scatterTo dst 0 pixels (y * width + 0)) =
        .ok (w.scatterTo dst 0 pixels (y * width + width)) := by
    refine loop_eq (f := fun x => w.scatterTo dst 0 pixels (y * width + x)) fun x hx => ?_
    have hplace : 0 + w.place (y * width + x) = y * stride + x := by
      rw [Nat.zero_add]
      exact w.place_index hx y
    rw [blendPixel, mul_eq (by omega), ok_bind, add_eq (by omega), ok_bind,
      fetch_eq_getD (by omega) 0.0, ok_bind, mul_eq (by omega), ok_bind, add_eq (by omega),
      ok_bind, fetch_eq_getD (by omega) 0.0, ok_bind]
    simp only [clamp_eq (show (0.0 : Float32) ≤ 255.0 by decide), ok_bind]
    rw [add_eq (by omega), ok_bind, store_eq (by rw [hsize]; omega), ← Nat.add_assoc,
      Window.scatterTo_succ, hplace, hpixels y hy x hx]
    rfl
  rw [blendRow, fetch_eq_getD (h.size ▸ hy) ⟨0, 0, 0.0⟩, ok_bind, mul_eq (by omega), ok_bind,
    add_eq (by omega), ok_bind, slice_eq (Nat.le_add_right _ _) (by rw [hsize]; exact hroom),
    ok_bind, Nat.succ_mul]
  exact hloop

/-- Every row of pixels is put between two rows of samples. -/
theorem blended_eq (h : Reaching taps height count) (hrows : rows.size = count * width)
    (hcells : count * width < wordSize) (hpixels : Blends rows taps width height pixels)
    (hdst : dst.size < wordSize) (hfits : ∀ y < height, y * stride + width ≤ dst.size) :
    loop (blendRow rows taps width stride) taps.size dst =
      .ok ((⟨width, height, stride⟩ : Window).scatter dst 0 pixels) := by
  let w : Window := ⟨width, height, stride⟩
  have hloop := loop_eq (f := fun y => w.scatterTo dst 0 pixels (y * width)) fun y hy =>
    blendRow_eq h hrows hcells hpixels hy hdst (hfits y hy)
  rw [Nat.zero_mul, Nat.mul_comm height] at hloop
  rw [h.size]
  exact hloop

end Blend

/-- Samples are stretched back over the pixels of their block, wherever its rows lie. -/
theorem upsample_eq {c : Cells} {width height columns rows stride : Nat} {samples dst : Bytes}
    (hx : Cuts c.x width columns) (hy : Cuts c.y height rows) (hwidth : Modest width)
    (hheight : Modest height) (hsamples : samples.size = columns * rows)
    (hdst : dst.size < wordSize) (hfits : ∀ y < height, y * stride + width ≤ dst.size) :
    upsample c samples dst stride =
      .ok ((⟨width, height, stride⟩ : Window).scatter dst 0 (c.plain.upsample samples)) := by
  have hword : (0x40000000 : Nat) < wordSize := by decide
  have hcolumns : Modest columns := Nat.le_trans hx.count_le hwidth
  have hrows : Modest rows := Nat.le_trans hy.count_le hheight
  have hacross := reaching_ofBounds hx
  have hdown := reaching_ofBounds hy
  have harea := hrows.mul_lt hwidth
  have hstretched := stretched_eq hacross hsamples hx.count_le hwidth hrows
  have hsize : (stretchRows samples columns rows (Tap.ofBounds c.x.toList)).size =
      rows * width := by
    simp [stretchRows, hacross.size]
  have hpixels : Blends (stretchRows samples columns rows (Tap.ofBounds c.x.toList))
      (Tap.ofBounds c.y.toList) width height (c.plain.upsample samples) := by
    intro y hy' x hx'
    have hget := BlockCells.getElem?_upsample_rows (c := c.plain) hx hy samples hx' hy'
    have hlt : y < (Tap.ofBounds c.y.toList).size := hdown.size ▸ hy'
    rw [Array.getD_eq_getD_getElem?, hget, Array.getD_eq_getD_getElem?,
      Array.getElem?_eq_getElem hlt, Option.getD_some, Option.getD_some, Tap.getElem_ofBounds]
    rfl
  rw [upsample, Cells.columns_eq hx, ok_bind, taps_eq hx hwidth hcolumns, ok_bind,
    taps_eq hy hheight hrows, ok_bind]
  simp only [hacross.size]
  rw [Cells.rows_eq hy, ok_bind, mul_eq (by omega), ok_bind, hstretched, ok_bind,
    blended_eq hdown hsize (by omega) hpixels hdst hfits]

/-- Packed pixels replace the whole buffer. -/
theorem upsample_packed_eq {c : Cells} {width height columns rows : Nat} {samples dst : Bytes}
    (hx : Cuts c.x width columns) (hy : Cuts c.y height rows) (hwidth : Modest width)
    (hheight : Modest height) (hsamples : samples.size = columns * rows)
    (hdst : dst.size = width * height) :
    upsample c samples dst width = .ok (c.plain.upsample samples) := by
  have hword : (0x40000000 : Nat) < wordSize := by decide
  have harea := hwidth.mul_lt hheight
  have hfits (y : Nat) (hy' : y < height) : y * width + width ≤ dst.size := by
    rw [hdst, ← Nat.succ_mul, Nat.mul_comm width]
    exact Nat.mul_le_mul_right width hy'
  rw [upsample_eq hx hy hwidth hheight hsamples (by omega) hfits]
  exact congrArg Except.ok (Window.scatterTo_packed hdst
    (BlockCells.size_upsample (c := c.plain) hx hy samples))

end Machine

end HopCodec
