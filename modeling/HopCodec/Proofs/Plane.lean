/-
Pasting rectangles into a plane.  The pixels of a rectangle become the ones pasted, all others
stay, and cropping a rectangle lists its pixels row by row.
-/
import HopCodec.Plane

namespace HopCodec

theorem reserve_of_lt {size : Nat} (h : size < allocationLimit) : reserve size = .ok () :=
  if_pos h

theorem reserve_of_le {size : Nat} (h : allocationLimit ≤ size) :
    reserve size = .error (.allocation size) :=
  if_neg (Nat.not_lt.mpr h)

theorem bytes_ext {a b : Bytes} (hsize : a.size = b.size)
    (h : ∀ i, i < a.size → a.getD i 0 = b.getD i 0) : a = b := by
  apply Array.ext hsize
  intro i hi hi'
  have hget := h i hi
  simpa [Array.getD_eq_getD_getElem?, hi, hi'] using hget

theorem getElem?_eq_of_getD {a b : Bytes} (hsize : a.size = b.size) {k : Nat}
    (h : a.getD k 0 = b.getD k 0) : a[k]? = b[k]? := by
  rw [Array.getD_eq_getD_getElem?, Array.getD_eq_getD_getElem?] at h
  by_cases hk : k < a.size
  · have hk' : k < b.size := hsize ▸ hk
    simpa [hk, hk'] using h
  · rw [Array.getElem?_eq_none (by omega), Array.getElem?_eq_none (by omega)]

theorem getD_setIfInBounds_of_ne {data : Bytes} {i k : Nat} (h : i ≠ k) (value : UInt8) :
    (data.setIfInBounds i value).getD k 0 = data.getD k 0 := by
  rw [Array.getD_eq_getD_getElem?, Array.getD_eq_getD_getElem?, Array.getElem?_setIfInBounds,
    if_neg h]

theorem getD_setIfInBounds_self {data : Bytes} {i : Nat} (h : i < data.size) (value : UInt8) :
    (data.setIfInBounds i value).getD i 0 = value := by
  rw [Array.getD_eq_getD_getElem?, Array.getElem?_setIfInBounds, if_pos rfl, if_pos h]
  rfl

theorem getD_replicate {n i : Nat} (h : i < n) (v : UInt8) :
    (Array.replicate n v).getD i 0 = v := by
  simp [Array.getD_eq_getD_getElem?, h]

theorem getD_extract {α : Type} {a : Array α} {start stop i : Nat} (default : α)
    (h : i < stop - start) :
    (a.extract start stop).getD i default = a.getD (start + i) default := by
  rw [Array.getD_eq_getD_getElem?, Array.getD_eq_getD_getElem?, Array.getElem?_extract]
  by_cases hin : start + i < a.size
  · rw [if_pos (by omega)]
  · rw [if_neg (by omega), Array.getElem?_eq_none (by omega)]

/-- The place of a pixel in raster order tells its column and row. -/
theorem raster_index {width height column row : Nat} (hcolumn : column < width)
    (hrow : row < height) :
    row * width + column < width * height ∧ (row * width + column) % width = column ∧
      (row * width + column) / width = row := by
  refine ⟨?_, ?_, ?_⟩
  · rw [Nat.mul_comm width]
    exact Nat.lt_of_lt_of_le (Nat.add_lt_add_left hcolumn _)
      (Nat.succ_mul row width ▸ Nat.mul_le_mul_right _ hrow)
  · rw [Nat.mul_add_mod', Nat.mod_eq_of_lt hcolumn]
  · rw [Nat.mul_comm, Nat.mul_add_div (Nat.zero_lt_of_lt hcolumn), Nat.div_eq_of_lt hcolumn,
      Nat.add_zero]

/-- A raster is listed row by row. -/
theorem map_range_raster {α : Type} (f : Nat → Nat → α) (width height : Nat) :
    ((List.range (width * height)).map fun i => f (i % width) (i / width)) =
      (List.range height).flatMap fun y => (List.range width).map fun x => f x y := by
  induction height with
  | zero => rfl
  | succ n ih =>
      have hrow : (List.range width).map (fun x =>
          f ((width * n + x) % width) ((width * n + x) / width)) =
            (List.range width).map fun x => f x n := by
        refine List.map_congr_left fun x hx => ?_
        have hlt := List.mem_range.mp hx
        rw [Nat.mul_add_mod, Nat.mod_eq_of_lt hlt, Nat.mul_add_div (Nat.zero_lt_of_lt hlt),
          Nat.div_eq_of_lt hlt, Nat.add_zero]
      rw [Nat.mul_succ, List.range_add, List.map_append, List.map_map, ih, List.range_succ,
        List.flatMap_append, List.flatMap_singleton, ← hrow]
      rfl

/-- A pixel that is not the first one of a row or lies below the first row has a pixel before it. -/
theorem raster_pos {width column row : Nat} (hwidth : 0 < width) (h : 0 < column ∨ 0 < row) :
    0 < row * width + column :=
  h.elim (Nat.add_pos_right _) fun hrow => Nat.add_pos_left (Nat.mul_pos hrow hwidth) column

namespace Window

/-- Pixels of different columns or rows lie at different places. -/
theorem index_inj {w : Window} {x y x' y' : Nat} (hx : x < w.stride) (hx' : x' < w.stride)
    (h : w.index x y = w.index x' y') : x = x' ∧ y = y' := by
  unfold index at h
  have hpos : 0 < w.stride := Nat.lt_of_le_of_lt (Nat.zero_le x) hx
  have hmod := congrArg (· % w.stride) h
  have hdiv := congrArg (· / w.stride) h
  simp only [Nat.mul_add_mod', Nat.mod_eq_of_lt hx, Nat.mod_eq_of_lt hx'] at hmod
  simp only [Nat.mul_comm _ w.stride, Nat.mul_add_div hpos, Nat.div_eq_of_lt hx,
    Nat.div_eq_of_lt hx', Nat.add_zero] at hdiv
  exact ⟨hmod, hdiv⟩

theorem mod_width_lt {w : Window} {i : Nat} (h : i < w.area) : i % w.width < w.width := by
  apply Nat.mod_lt
  rcases Nat.eq_zero_or_pos w.width with hzero | hpos
  · simp [area, hzero] at h
  · exact hpos

theorem div_width_lt {w : Window} {i : Nat} (h : i < w.area) : i / w.width < w.height :=
  Nat.div_lt_of_lt_mul h

theorem place_inj {w : Window} (hstride : w.width ≤ w.stride) {i j : Nat} (hi : i < w.area)
    (hj : j < w.area) (h : w.place i = w.place j) : i = j := by
  have hx := mod_width_lt hi
  have hx' := mod_width_lt hj
  obtain ⟨hmod, hdiv⟩ := index_inj (by omega) (by omega) h
  rw [← Nat.div_add_mod i w.width, ← Nat.div_add_mod j w.width, hmod, hdiv]

theorem place_index (w : Window) {x : Nat} (hx : x < w.width) (y : Nat) :
    w.place (y * w.width + x) = w.index x y := by
  have hpos : 0 < w.width := Nat.zero_lt_of_lt hx
  rw [place, Nat.mul_add_mod', Nat.mod_eq_of_lt hx, Nat.mul_comm y w.width,
    Nat.mul_add_div hpos, Nat.div_eq_of_lt hx, Nat.add_zero]

/-- A window that fits a buffer has room in it for all its pixels. -/
theorem Fits.area_le {w : Window} {len : Nat} (h : w.Fits len) (hheight : 0 < w.height) :
    w.area ≤ len := by
  obtain ⟨hstride, hextent⟩ := h
  refine Nat.le_trans ?_ hextent
  have hrows : (w.height - 1) * w.width ≤ (w.height - 1) * w.stride :=
    Nat.mul_le_mul_left (w.height - 1) hstride
  have harea : w.area = (w.height - 1) * w.width + w.width := by
    rw [area, ← Nat.succ_mul, Nat.succ_eq_add_one, Nat.sub_add_cancel hheight, Nat.mul_comm]
  rw [harea, extent]
  exact Nat.add_le_add_right hrows w.width

theorem getD_gather (w : Window) (data : Bytes) (offset : Nat) {i : Nat} (hi : i < w.area) :
    (w.gather data offset).getD i 0 = data.getD (offset + w.place i) 0 := by
  simp [gather, Array.getD_eq_getD_getElem?, hi]

/-- The writes of a scatter up to pixel `n`. -/
def scatterTo (w : Window) (data : Bytes) (offset : Nat) (pixels : Bytes) (n : Nat) : Bytes :=
  n.fold (fun i _ data => data.setIfInBounds (offset + w.place i) (pixels.getD i 0)) data

theorem scatterTo_succ (w : Window) (data : Bytes) (offset : Nat) (pixels : Bytes) (n : Nat) :
    w.scatterTo data offset pixels (n + 1) =
      (w.scatterTo data offset pixels n).setIfInBounds (offset + w.place n) (pixels.getD n 0) := by
  simp [scatterTo]

theorem size_scatterTo (w : Window) (data : Bytes) (offset : Nat) (pixels : Bytes) (n : Nat) :
    (w.scatterTo data offset pixels n).size = data.size := by
  induction n with
  | zero => rfl
  | succ n ih => rw [scatterTo_succ, Array.size_setIfInBounds, ih]

theorem getD_scatterTo_of_ne {w : Window} {offset k n : Nat} (data pixels : Bytes)
    (h : ∀ i, i < n → offset + w.place i ≠ k) :
    (w.scatterTo data offset pixels n).getD k 0 = data.getD k 0 := by
  induction n with
  | zero => rfl
  | succ n ih =>
      rw [scatterTo_succ, getD_setIfInBounds_of_ne (h n (by omega))]
      exact ih fun i hi => h i (by omega)

/-- A scatter leaves every byte outside its window alone. -/
theorem getD_scatter_of_ne {w : Window} {offset k : Nat} (data pixels : Bytes)
    (h : ∀ i, i < w.area → offset + w.place i ≠ k) :
    (w.scatter data offset pixels).getD k 0 = data.getD k 0 :=
  getD_scatterTo_of_ne data pixels h

theorem getD_scatterTo_place {w : Window} (hstride : w.width ≤ w.stride) {data : Bytes}
    {offset i n : Nat} (pixels : Bytes) (hi : i < n) (hn : n ≤ w.area)
    (hroom : offset + w.place i < data.size) :
    (w.scatterTo data offset pixels n).getD (offset + w.place i) 0 = pixels.getD i 0 := by
  induction n with
  | zero => omega
  | succ n ih =>
      rw [scatterTo_succ]
      by_cases hlast : i = n
      · rw [hlast] at hroom ⊢
        exact getD_setIfInBounds_self (by rwa [size_scatterTo]) _
      · have hne : offset + w.place n ≠ offset + w.place i := by
          intro heq
          have := place_inj hstride (Nat.lt_of_lt_of_le hi hn) hn (by omega)
          omega
        rw [getD_setIfInBounds_of_ne hne]
        exact ih (by omega) (by omega)

/-- A scatter puts pixel `i` at its place. -/
theorem getD_scatter_place {w : Window} (hstride : w.width ≤ w.stride) {data : Bytes}
    {offset i : Nat} (pixels : Bytes) (hi : i < w.area)
    (hroom : offset + w.place i < data.size) :
    (w.scatter data offset pixels).getD (offset + w.place i) 0 = pixels.getD i 0 :=
  getD_scatterTo_place hstride pixels hi (Nat.le_refl _) hroom

theorem place_packed (width height i : Nat) : (packed width height).place i = i :=
  Nat.div_add_mod' i width

theorem area_packed (width height : Nat) : (packed width height).area = width * height :=
  rfl

/-- The pixels of a packed window are the bytes themselves. -/
theorem gather_packed {width height : Nat} {data : Bytes} (h : data.size = width * height) :
    (packed width height).gather data 0 = data := by
  apply bytes_ext
  · rw [size_gather, area_packed, h]
  · intro i hi
    rw [size_gather] at hi
    rw [getD_gather _ _ _ hi, place_packed, Nat.zero_add]

/-- Pixels that fill a packed window replace the whole buffer. -/
theorem scatterTo_packed {width height : Nat} {data pixels : Bytes}
    (hdata : data.size = width * height) (hpixels : pixels.size = width * height) :
    (packed width height).scatterTo data 0 pixels (width * height) = pixels := by
  apply bytes_ext
  · rw [size_scatterTo, hdata, hpixels]
  · intro i hi
    rw [size_scatterTo, hdata] at hi
    have hplace : 0 + (packed width height).place i = i := by
      rw [place_packed, Nat.zero_add]
    have hget := getD_scatterTo_place (w := packed width height) (Nat.le_refl width) pixels hi
      (Nat.le_refl _) (by rw [hplace, hdata]; exact hi)
    rwa [hplace] at hget

end Window

namespace Plane

/-- A plane over a buffer of just its pixels. -/
def ofPacked (width height : Nat) (data : Bytes) (h : data.size = width * height) : Plane where
  width := width
  height := height
  stride := width
  data := data
  width_le_stride := Nat.le_refl _
  holds := by
    rcases Nat.eq_zero_or_pos height with hempty | hpos
    · exact .inl hempty
    · refine .inr (Nat.le_of_eq ?_)
      rw [h, ← Nat.succ_mul, Nat.succ_eq_add_one, Nat.sub_add_cancel hpos, Nat.mul_comm]

@[simp] theorem toPacked_ofPacked {width height : Nat} {data : Bytes}
    (h : data.size = width * height) : (ofPacked width height data h).toPacked = data :=
  Window.gather_packed h

theorem ofBytes?_eq_ofPacked {width height : Nat} {data : Bytes}
    (h : data.size = width * height) :
    ofBytes? width height width data = .ok (ofPacked width height data h) := by
  have hholds := (ofPacked width height data h).holds
  simp only [ofPacked] at hholds
  unfold ofBytes?
  rw [dif_neg (Nat.lt_irrefl width), dif_neg (by omega)]
  rfl

@[simp] theorem width_paste (p : Plane) (x y width height : Nat) (pixels : Bytes) :
    (p.paste x y width height pixels).width = p.width := by
  cases p
  rfl

@[simp] theorem height_paste (p : Plane) (x y width height : Nat) (pixels : Bytes) :
    (p.paste x y width height pixels).height = p.height := by
  cases p
  rfl

@[simp] theorem stride_paste (p : Plane) (x y width height : Nat) (pixels : Bytes) :
    (p.paste x y width height pixels).stride = p.stride := by
  cases p
  rfl

@[simp] theorem window_paste (p : Plane) (x y width height : Nat) (pixels : Bytes) :
    (p.paste x y width height pixels).window = p.window := by
  cases p
  rfl

theorem data_paste (p : Plane) (x y width height : Nat) (pixels : Bytes) :
    (p.paste x y width height pixels).data =
      (⟨width, height, p.stride⟩ : Window).scatter p.data (p.window.index x y) pixels := by
  cases p
  rfl

/-- A visible pixel lies in the buffer. -/
theorem index_lt_size (p : Plane) {x y : Nat} (hx : x < p.width) (hy : y < p.height) :
    p.window.index x y < p.data.size := by
  have hholds := p.holds
  have hrow : y * p.stride ≤ (p.height - 1) * p.stride :=
    Nat.mul_le_mul_right p.stride (by omega)
  simp only [window, Window.index]
  omega

/-- The place of a pixel of a rectangle, counted from its first pixel. -/
theorem index_add_place (p : Plane) (x y width height i : Nat) :
    p.window.index x y + (⟨width, height, p.stride⟩ : Window).place i =
      p.window.index (x + i % width) (y + i / width) := by
  simp only [window, Window.place, Window.index, Nat.add_mul]
  omega

/-- The pixels of a rectangle are those of the plane. -/
theorem getD_crop (p : Plane) {x y width height i : Nat} (hi : i < width * height) :
    (p.crop x y width height).getD i 0 = p.get (x + i % width) (y + i / width) := by
  have hsize : i < (⟨width, height, p.stride⟩ : Window).area := hi
  unfold crop Window.gather get
  rw [← index_add_place p x y width height]
  simp [Array.getD_eq_getD_getElem?, hsize]

@[simp] theorem size_crop (p : Plane) (x y width height : Nat) :
    (p.crop x y width height).size = width * height := by
  simp [crop, Window.area]

theorem toPacked_eq_crop (p : Plane) : p.toPacked = p.crop 0 0 p.width p.height := by
  simp [toPacked, crop, window, Window.index]

theorem getD_toPacked (p : Plane) {x y : Nat} (hx : x < p.width) (hy : y < p.height) :
    p.toPacked.getD (y * p.width + x) 0 = p.get x y := by
  obtain ⟨hlt, hcolumn, hrow⟩ := raster_index hx hy
  rw [toPacked_eq_crop, getD_crop p hlt, hcolumn, hrow, Nat.zero_add, Nat.zero_add]

theorem getD_region (p : Plane) (x y i : Nat) :
    (p.region x y).getD i 0 = p.data.getD (p.window.index x y + i) 0 := by
  unfold region
  by_cases h : p.window.index x y + i < p.data.size
  · have hlt : i < p.data.size - p.window.index x y := by omega
    simp [Array.getD_eq_getD_getElem?, h, hlt]
  · have hge : ¬ i < p.data.size - p.window.index x y := by omega
    simp [Array.getD_eq_getD_getElem?, h, hge]

/-- The packed pixels are the pixels row by row. -/
theorem toList_toPacked (p : Plane) :
    p.toPacked.toList =
      (List.range p.height).flatMap fun y => (List.range p.width).map fun x => p.get x y := by
  rw [← map_range_raster p.get]
  refine List.ext_getElem (by simp) fun i hi _ => ?_
  rw [Array.length_toList, size_toPacked] at hi
  have hpixel := getD_crop p (x := 0) (y := 0) hi
  rw [← toPacked_eq_crop, Nat.zero_add, Nat.zero_add] at hpixel
  simpa [Array.getD_eq_getD_getElem?, hi] using hpixel

/-- Rectangles with the same pixels are the same. -/
theorem crop_congr {p q : Plane} {x y width height : Nat}
    (h : ∀ i < width, ∀ j < height, p.get (x + i) (y + j) = q.get (x + i) (y + j)) :
    p.crop x y width height = q.crop x y width height := by
  apply bytes_ext
  · rw [size_crop, size_crop]
  · intro i hi
    rw [size_crop] at hi
    have hin : i < (⟨width, height, p.stride⟩ : Window).area := hi
    rw [getD_crop p hi, getD_crop q hi]
    exact h _ (Window.mod_width_lt hin) _ (Window.div_width_lt hin)

/-- Pixels outside the pasted rectangle stay. -/
theorem get_paste_outside (p : Plane) {x y width height : Nat} (pixels : Bytes)
    (hwide : x + width ≤ p.width) {i j : Nat} (hi : i < p.width)
    (hout : ¬ ((x ≤ i ∧ i < x + width) ∧ y ≤ j ∧ j < y + height)) :
    (p.paste x y width height pixels).get i j = p.get i j := by
  have hstride := p.width_le_stride
  unfold get
  rw [window_paste, data_paste]
  apply Window.getD_scatter_of_ne
  intro k hk
  have hcolumn : k % width < width := Window.mod_width_lt hk
  have hrow : k / width < height := Window.div_width_lt hk
  have hx : x + k % width < p.window.stride := by
    change _ < p.stride
    omega
  have hx' : i < p.window.stride := Nat.lt_of_lt_of_le hi hstride
  rw [index_add_place]
  intro heq
  obtain ⟨rfl, rfl⟩ := Window.index_inj hx hx' heq
  exact hout ⟨⟨Nat.le_add_right _ _, Nat.add_lt_add_left hcolumn x⟩, Nat.le_add_right _ _,
    Nat.add_lt_add_left hrow y⟩

/-- Pixels inside the pasted rectangle are the ones pasted. -/
theorem get_paste_inside (p : Plane) {x y width height : Nat} (pixels : Bytes)
    (hwide : x + width ≤ p.width) (hhigh : y + height ≤ p.height) {i j : Nat} (hi : i < width)
    (hj : j < height) :
    (p.paste x y width height pixels).get (x + i) (y + j) = pixels.getD (j * width + i) 0 := by
  have hstride := p.width_le_stride
  obtain ⟨hk, hmod, hdiv⟩ := raster_index hi hj
  have hplace := index_add_place p x y width height (j * width + i)
  rw [hmod, hdiv] at hplace
  have hroom := p.index_lt_size (show x + i < p.width by omega) (show y + j < p.height by omega)
  unfold get
  rw [window_paste, data_paste]
  rw [← hplace] at hroom ⊢
  exact Window.getD_scatter_place (by simp only; omega) pixels hk hroom

def uniform (width height : Nat) (value : UInt8) : Plane :=
  .ofPacked width height (Array.replicate (width * height) value) Array.size_replicate

theorem get_uniform {width height x y : Nat} (value : UInt8) (hx : x < width) (hy : y < height) :
    (uniform width height value).get x y = value := by
  have hplace := (uniform width height value).index_lt_size hx hy
  have hsize : (uniform width height value).data.size = width * height := Array.size_replicate
  rw [hsize] at hplace
  exact getD_replicate hplace value

end Plane

end HopCodec
