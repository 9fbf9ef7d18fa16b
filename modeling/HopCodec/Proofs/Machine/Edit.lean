/-
Writes to canvases.  A write within the pixels of a plane gives a plane of the same shape whose
pixels are the ones written or the old ones, and no byte beside the pixels is touched; so a plane
is, under any run of writes, the array of what was last written to each pixel.
-/
import HopCodec.Machine.Edit
import HopCodec.Proofs.Machine.Canvas

namespace HopCodec

namespace Plane

/-- A plane of the same shape whose pixels are those written, or the old ones, and whose other
bytes are the old ones. -/
structure Edited (p q : Plane) (written : Nat → Nat → Option UInt8) : Prop where
  width : q.width = p.width
  height : q.height = p.height
  stride : q.stride = p.stride
  size : q.data.size = p.data.size
  visible : ∀ x < p.width, ∀ y < p.height, q.get x y = (written x y).getD (p.get x y)
  hidden : ∀ k, (∀ x < p.width, ∀ y < p.height, k ≠ p.window.index x y) →
    q.data.getD k 0 = p.data.getD k 0

variable {p q r : Plane} {first second : Nat → Nat → Option UInt8}

theorem Edited.refl (p : Plane) : p.Edited p fun _ _ => none :=
  ⟨rfl, rfl, rfl, rfl, fun _ _ _ _ => rfl, fun _ _ => rfl⟩

/-- Of two writes, the second one counts where it has written. -/
theorem Edited.trans (hpq : p.Edited q first) (hqr : q.Edited r second) :
    p.Edited r fun x y => (second x y).or (first x y) where
  width := hqr.width.trans hpq.width
  height := hqr.height.trans hpq.height
  stride := hqr.stride.trans hpq.stride
  size := hqr.size.trans hpq.size
  visible := by
    intro x hx y hy
    rw [hqr.visible x (hpq.width ▸ hx) y (hpq.height ▸ hy), hpq.visible x hx y hy]
    cases second x y <;> rfl
  hidden := by
    intro k hk
    have hindex (x y : Nat) : q.window.index x y = p.window.index x y := by
      simp only [window, Window.index, hpq.stride]
    rw [hqr.hidden k fun x hx y hy => hindex x y ▸ hk x (hpq.width ▸ hx) y (hpq.height ▸ hy),
      hpq.hidden k hk]

/-- A single pixel is written. -/
theorem edited_set (p : Plane) {x y : Nat} (hx : x < p.width) (hy : y < p.height)
    (value : UInt8) :
    p.Edited (p.set x y value) fun i j => if i = x ∧ j = y then some value else none where
  width := rfl
  height := rfl
  stride := rfl
  size := Array.size_setIfInBounds
  visible := by
    intro i hi j hj
    have hstride := p.width_le_stride
    by_cases hat : i = x ∧ j = y
    · obtain ⟨rfl, rfl⟩ := hat
      rw [if_pos ⟨rfl, rfl⟩]
      exact getD_setIfInBounds_self (p.index_lt_size hx hy) value
    · rw [if_neg hat]
      refine getD_setIfInBounds_of_ne (fun heq => hat ?_) value
      obtain ⟨hcolumn, hrow⟩ := Window.index_inj (w := p.window)
        (Nat.lt_of_lt_of_le hx hstride) (Nat.lt_of_lt_of_le hi hstride) heq
      exact ⟨hcolumn.symm, hrow.symm⟩
  hidden := fun k hk => getD_setIfInBounds_of_ne (hk x hx y hy).symm value

/-- A block is written. -/
theorem edited_blit (p : Plane) {x y width height : Nat} (hwide : x + width ≤ p.width)
    (hhigh : y + height ≤ p.height) (src : Bytes) (srcStride : Nat) :
    p.Edited (p.blit x y width height src srcStride) fun i j =>
      if (x ≤ i ∧ i < x + width) ∧ y ≤ j ∧ j < y + height then
        some (src.getD ((j - y) * srcStride + (i - x)) 0)
      else none where
  width := p.width_paste ..
  height := p.height_paste ..
  stride := p.stride_paste ..
  size := by
    rw [blit, data_paste, Window.size_scatter]
  visible := by
    intro i hi j hj
    by_cases hin : (x ≤ i ∧ i < x + width) ∧ y ≤ j ∧ j < y + height
    · obtain ⟨⟨hleft, hright⟩, habove, hbelow⟩ := hin
      obtain ⟨column, rfl⟩ := Nat.exists_eq_add_of_le hleft
      obtain ⟨row, rfl⟩ := Nat.exists_eq_add_of_le habove
      have hcolumn : column < width := by omega
      have hrow : row < height := by omega
      obtain ⟨harea, -, -⟩ := raster_index hcolumn hrow
      rw [if_pos ⟨⟨hleft, hright⟩, habove, hbelow⟩, blit,
        get_paste_inside p _ hwide hhigh hcolumn hrow, Window.getD_gather _ _ _ harea,
        Window.place_index _ hcolumn, Nat.zero_add, Nat.add_sub_cancel_left,
        Nat.add_sub_cancel_left]
      rfl
    · rw [if_neg hin]
      exact get_paste_outside p _ hwide hi hin
  hidden := by
    intro k hk
    rw [blit, data_paste]
    refine Window.getD_scatter_of_ne _ _ fun i hi => ?_
    have hcolumn : i % width < width := Window.mod_width_lt hi
    have hrow : i / width < height := Window.div_width_lt hi
    rw [index_add_place]
    exact (hk _ (by omega) _ (by omega)).symm

end Plane

namespace Machine

namespace Edit

def InRange (width height : Nat) : Edit → Prop
  | .set x y _ => x < width ∧ y < height
  | .blit x y w h src srcStride =>
      x + w ≤ width ∧ y + h ≤ height ∧ src.size < wordSize ∧
        (h = 0 ∨ (h - 1) * srcStride + w ≤ src.size)

instance (width height : Nat) : DecidablePred (InRange width height)
  | .set .. => inferInstanceAs (Decidable (_ ∧ _))
  | .blit .. => inferInstanceAs (Decidable (_ ∧ _ ∧ _ ∧ (_ ∨ _)))

/-- What is written to a pixel, if anything is. -/
def written? (x y : Nat) : Edit → Option UInt8
  | .set x' y' value => if x = x' ∧ y = y' then some value else none
  | .blit x' y' w h src srcStride =>
      if (x' ≤ x ∧ x < x' + w) ∧ y' ≤ y ∧ y < y' + h then
        some (src.getD ((y - y') * srcStride + (x - x')) 0)
      else none

/-- What is last written to a pixel, if anything is. -/
def lastWritten? (edits : List Edit) (x y : Nat) : Option UInt8 :=
  edits.reverse.findSome? (written? x y)

theorem lastWritten?_cons (e : Edit) (rest : List Edit) :
    lastWritten? (e :: rest) = fun x y => (lastWritten? rest x y).or (e.written? x y) := by
  funext x y
  rw [lastWritten?, List.reverse_cons, List.findSome?_append, List.findSome?_singleton]
  rfl

end Edit

namespace Canvas

open Edit

variable {p : Plane}

theorem get_eq (hdata : p.data.size < wordSize) {x y : Nat} (hx : x < p.width)
    (hy : y < p.height) : (ofPlane p).get x y = .ok (p.get x y) := by
  have hplace := p.index_lt_size hx hy
  simp only [Plane.window, Window.index] at hplace
  simp only [get, ofPlane]
  rw [mul_eq (by omega), ok_bind, add_eq (by omega), ok_bind, fetch_eq_getD hplace 0]
  rfl

theorem set_eq (hdata : p.data.size < wordSize) {x y : Nat} (hx : x < p.width)
    (hy : y < p.height) (value : UInt8) :
    (ofPlane p).set x y value = .ok (ofPlane (p.set x y value)) := by
  have hplace := p.index_lt_size hx hy
  simp only [Plane.window, Window.index] at hplace
  simp only [set, ofPlane]
  rw [mul_eq (by omega), ok_bind, add_eq (by omega), ok_bind, store_eq hplace]
  rfl

/-- A write in range ends well. -/
theorem exists_run (hdata : p.data.size < wordSize) (hheight : p.height < wordSize) {e : Edit}
    (he : e.InRange p.width p.height) :
    ∃ q : Plane, e.run (ofPlane p) = .ok (ofPlane q) ∧ p.Edited q fun x y => e.written? x y := by
  cases e with
  | set x y value =>
      exact ⟨_, set_eq hdata he.1 he.2 value, p.edited_set he.1 he.2 value⟩
  | blit x y width height src srcStride =>
      obtain ⟨hwide, hhigh, hsrc, hsource⟩ := he
      have hrows (k : Nat) (hk : k < height) : k * srcStride + width ≤ src.size := by
        have hrow : k * srcStride ≤ (height - 1) * srcStride :=
          Nat.mul_le_mul_right srcStride (by omega)
        omega
      exact ⟨_, blit_eq p hwide hhigh hdata hheight hsrc hrows, p.edited_blit hwide hhigh src _⟩

/-- Writes in range end well, one after another, and each pixel is what was last written to it. -/
theorem exists_edit (hdata : p.data.size < wordSize) (hheight : p.height < wordSize)
    {edits : List Edit} (hedits : ∀ e ∈ edits, e.InRange p.width p.height) :
    ∃ q : Plane, (ofPlane p).edit edits = .ok (ofPlane q) ∧ p.Edited q (lastWritten? edits) := by
  induction edits generalizing p with
  | nil => exact ⟨p, rfl, .refl p⟩
  | cons e rest ih =>
      rw [List.forall_mem_cons] at hedits
      obtain ⟨q, hrun, hq⟩ := exists_run hdata hheight hedits.1
      obtain ⟨r, hmore, hr⟩ := ih (p := q) (hq.size ▸ hdata) (hq.height ▸ hheight)
        (hq.width ▸ hq.height ▸ hedits.2)
      refine ⟨r, ?_, ?_⟩
      · rw [edit, List.foldlM_cons, hrun, ok_bind]
        exact hmore
      · rw [lastWritten?_cons]
        exact hq.trans hr

/-- A canvas as it is built, with the pixels that it begins with.  Sizes are machine words. -/
inductive Built : Canvas → (Nat → Nat → UInt8) → Prop
  | new {c : Canvas} {width height : Nat} (hheight : height < wordSize)
      (h : Canvas.new width height = .ok c) : Built c fun _ _ => 0
  | filled {c : Canvas} {width height : Nat} {value : UInt8} (hheight : height < wordSize)
      (h : Canvas.filled width height value = .ok c) : Built c fun _ _ => value
  | ofBytes {c : Canvas} {width height stride : Nat} {data : Bytes} (hwidth : width < wordSize)
      (hheight : height < wordSize) (hdata : data.size < wordSize)
      (h : Canvas.ofBytes width height stride data = .ok c) :
      Built c fun x y => data.getD (y * stride + x) 0

/-- There was room for a canvas that is new. -/
theorem room_of_new {c : Canvas} {width height : Nat} (h : new width height = .ok c) :
    width * height < allocationLimit := by
  by_contra hfull
  rw [Nat.not_lt] at hfull
  by_cases hword : width * height < wordSize
  · rw [new_of_full hword hfull] at h
    cases h
  · rw [new, mul, fit, if_neg hword] at h
    cases h

/-- A canvas over a buffer stands for a plane. -/
theorem exists_plane_of_ofBytes {c : Canvas} {width height stride : Nat} {data : Bytes}
    (hwidth : width < wordSize) (h : ofBytes width height stride data = .ok c) :
    ∃ p : Plane, Plane.ofBytes? width height stride data = .ok p ∧ c = ofPlane p := by
  have hextent : (height - 1) * stride + width < wordSize := by
    by_cases hheight : 0 < height
    · unfold ofBytes at h
      rw [if_pos hheight, sub_eq (show 1 ≤ height from hheight)] at h
      by_cases hstride : stride < width
      · rw [if_pos hstride] at h
        cases h
      · rw [if_neg hstride] at h
        simp only [ok_bind] at h
        obtain ⟨start, hstart, h⟩ := bind_eq_ok_iff.mp h
        obtain ⟨-, rfl⟩ := fit_eq_ok_iff.mp hstart
        obtain ⟨stop, hstop, -⟩ := bind_eq_ok_iff.mp h
        exact (fit_eq_ok_iff.mp hstop).1
    · obtain rfl : height = 0 := by omega
      simpa using hwidth
  rw [ofBytes_eq hextent, lift_map_eq_ok_iff] at h
  obtain ⟨p, hp, rfl⟩ := h
  exact ⟨p, hp, rfl⟩

/-- A canvas that is built stands for a plane with the pixels that it begins with. -/
theorem Built.exists_plane {c : Canvas} {initial : Nat → Nat → UInt8} (h : Built c initial) :
    ∃ p : Plane, c = ofPlane p ∧ p.data.size < wordSize ∧ p.height < wordSize ∧
      ∀ x < p.width, ∀ y < p.height, p.get x y = initial x y := by
  have hlimit : allocationLimit < wordSize := by decide
  cases h with
  | @new width height hheight h =>
      have hroom := room_of_new h
      rw [new_of_room hroom] at h
      cases h
      refine ⟨.uniform width height 0, rfl, ?_, hheight,
        fun x hx y hy => Plane.get_uniform 0 hx hy⟩
      exact lt_of_eq_of_lt Array.size_replicate (hroom.trans hlimit)
  | @filled width height value hheight h =>
      obtain ⟨blank, hblank, h⟩ := bind_eq_ok_iff.mp h
      have hroom := room_of_new hblank
      rw [new_of_room hroom] at hblank
      cases hblank
      cases h
      refine ⟨.uniform width height value, ?_, ?_, hheight,
        fun x hx y hy => Plane.get_uniform value hx hy⟩
      · simp [Plane.uniform, Plane.ofPacked, ofPlane]
      · exact lt_of_eq_of_lt Array.size_replicate (hroom.trans hlimit)
  | @ofBytes width height stride data hwidth hheight hdata h =>
      obtain ⟨p, hp, rfl⟩ := exists_plane_of_ofBytes hwidth h
      unfold Plane.ofBytes? at hp
      split at hp
      · cases hp
      split at hp
      · cases hp
      cases hp
      exact ⟨_, rfl, hdata, hheight, fun x hx y hy => rfl⟩

/-- A canvas is an array of `width × height` pixels.  However it was built, writes in range end
well.  Each pixel is then what was last written to it, or what it was in the beginning; the packed
pixels are the pixels row by row, and those of a region are where the stride says.  No byte beside
the pixels has changed. -/
theorem edit_exact {c : Canvas} {initial : Nat → Nat → UInt8} (hbuilt : Built c initial)
    {edits : List Edit} (hedits : ∀ e ∈ edits, e.InRange c.width c.height) :
    ∃ d, c.edit edits = .ok d ∧ d.width = c.width ∧ d.height = c.height ∧ d.stride = c.stride ∧
      (∀ x < d.width, ∀ y < d.height,
        d.get x y = .ok ((lastWritten? edits x y).getD (initial x y))) ∧
      (∃ packed, d.toPacked = .ok packed ∧
        packed.toList.map Except.ok =
          (List.range d.height).flatMap fun y => (List.range d.width).map fun x => d.get x y) ∧
      (∀ x < d.width, ∀ y < d.height, ∃ part, d.region x y = .ok part ∧
        ∀ dx dy, x + dx < d.width → y + dy < d.height →
          fetch part (dy * d.stride + dx) = d.get (x + dx) (y + dy)) ∧
      d.data.size = c.data.size ∧
      ∀ k, (∀ x < d.width, ∀ y < d.height, k ≠ y * d.stride + x) → d.data[k]? = c.data[k]? := by
  obtain ⟨p, rfl, hdata, hheight, hinitial⟩ := hbuilt.exists_plane
  obtain ⟨q, hrun, hq⟩ := exists_edit hdata hheight hedits
  have hdata' : q.data.size < wordSize := hq.size ▸ hdata
  have hget (x : Nat) (hx : x < q.width) (y : Nat) (hy : y < q.height) :
      (ofPlane q).get x y = .ok (q.get x y) := get_eq hdata' hx hy
  refine ⟨ofPlane q, hrun, hq.width, hq.height, hq.stride, ?_, ?_, ?_, hq.size, ?_⟩
  · intro x hx y hy
    have hx' : x < p.width := hq.width ▸ hx
    have hy' : y < p.height := hq.height ▸ hy
    rw [hget x hx y hy, hq.visible x hx' y hy', hinitial x hx' y hy']
  · refine ⟨_, toPacked_eq q hdata', ?_⟩
    rw [Plane.toList_toPacked, List.map_flatMap]
    refine List.flatMap_congr fun y hy => ?_
    rw [List.map_map]
    exact List.map_congr_left fun x hx =>
      (hget x (List.mem_range.mp hx) y (List.mem_range.mp hy)).symm
  · intro x hx y hy
    refine ⟨_, region_eq q hx hy hdata', fun dx dy hdx hdy => ?_⟩
    have hplace : q.window.index x y + (dy * q.stride + dx) = q.window.index (x + dx) (y + dy) := by
      simp only [Plane.window, Window.index, Nat.add_mul]
      omega
    have hroom := q.index_lt_size hdx hdy
    have hlt : dy * q.stride + dx < (q.region x y).size := by
      rw [Plane.region, Array.size_extract]
      omega
    rw [hget _ hdx _ hdy, Plane.get, ← hplace, ← Plane.getD_region]
    exact fetch_eq_getD hlt 0
  · intro k hk
    refine getElem?_eq_of_getD hq.size (hq.hidden k fun x hx y hy => ?_)
    have hne := hk x (lt_of_lt_of_eq hx hq.width.symm) y (lt_of_lt_of_eq hy hq.height.symm)
    rwa [show (ofPlane q).stride = p.stride from hq.stride] at hne

/-- Two rows of three pixels, four bytes apart: a block that reaches to their right end, and a pixel
of it written once more. -/
theorem edit_exact_threeByTwo :
    ∃ d, (⟨3, 2, 4, #[10, 11, 12, 13, 14, 15, 16]⟩ : Canvas).edit
        [.blit 1 0 2 2 #[1, 2, 0, 3, 4] 3, .set 2 1 7] = .ok d ∧
      d.get 0 0 = .ok 10 ∧ d.get 1 1 = .ok 3 ∧ d.get 2 1 = .ok 7 ∧ d.data[3]? = some 13 := by
  have hbuilt := @Built.ofBytes ⟨3, 2, 4, #[10, 11, 12, 13, 14, 15, 16]⟩ 3 2 4
    #[10, 11, 12, 13, 14, 15, 16] (by decide) (by decide) (by decide) rfl
  have hedits : ∀ e ∈ [Edit.blit 1 0 2 2 #[1, 2, 0, 3, 4] 3, .set 2 1 7], e.InRange 3 2 := by
    decide
  obtain ⟨d, hrun, hwidth, hheight, hstride, hget, -, -, -, hhidden⟩ := edit_exact hbuilt hedits
  simp only at hwidth hheight hstride
  rw [hwidth, hheight] at hget
  refine ⟨d, hrun, hget 0 (by decide) 0 (by decide), hget 1 (by decide) 1 (by decide),
    hget 2 (by decide) 1 (by decide), hhidden 3 fun x hx y hy => ?_⟩
  rw [hwidth] at hx
  rw [hstride]
  omega

end Canvas

end Machine

end HopCodec
