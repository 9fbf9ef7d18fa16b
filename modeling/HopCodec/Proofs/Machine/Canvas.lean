/-
Canvases that stand for planes.  Every row of a rectangle of a plane lies in its buffer, so
rectangles can be read and written, and what comes out stands for the plane again.
-/
import HopCodec.Machine.Canvas
import HopCodec.Proofs.Frame.Assembly
import HopCodec.Proofs.Machine.Grid

namespace HopCodec

/-- A row of a plane lies in the buffer. -/
theorem Plane.row_le_size (p : Plane) {y : Nat} (hy : y < p.height) :
    y * p.stride + p.width ≤ p.data.size := by
  have hholds := p.holds
  have hrow : y * p.stride ≤ (p.height - 1) * p.stride :=
    Nat.mul_le_mul_right p.stride (by omega)
  omega

/-- A plane has no more pixels than its buffer has bytes. -/
theorem Plane.area_le_size (plane : Plane) : plane.width * plane.height ≤ plane.data.size := by
  rcases Nat.eq_zero_or_pos plane.height with hempty | hpos
  · simp [hempty]
  · exact Window.Fits.area_le (w := plane.window)
      ⟨plane.width_le_stride, plane.row_le_size (Nat.sub_lt hpos Nat.one_pos)⟩ hpos

namespace Machine

namespace Canvas

theorem new_of_room {width height : Nat} (hroom : width * height < allocationLimit) :
    new width height = .ok ⟨width, height, width, Array.replicate (width * height) 0⟩ := by
  have hlimit : allocationLimit < wordSize := by decide
  rw [new, mul_eq (Nat.lt_trans hroom hlimit), ok_bind, allocate_eq hroom]
  rfl

theorem new_of_full {width height : Nat} (hword : width * height < wordSize)
    (hfull : allocationLimit ≤ width * height) :
    new width height = refuse (.allocation (width * height)) := by
  rw [new, mul_eq hword, ok_bind, allocate_of_le hfull]
  rfl

theorem new_eq {width height : Nat} (hroom : width * height < allocationLimit) {plane : Plane}
    (h : Plane.new? width height = .ok plane) : new width height = .ok (ofPlane plane) := by
  rw [new_of_room hroom]
  unfold Plane.new? Plane.filled? reserve at h
  rw [if_pos hroom] at h
  cases h
  rfl

theorem region_eq (p : Plane) {x y : Nat} (hx : x < p.width) (hy : y < p.height)
    (hdata : p.data.size < wordSize) : (ofPlane p).region x y = .ok (p.region x y) := by
  have hplace := p.index_lt_size hx hy
  simp only [Plane.window, Window.index] at hplace
  simp only [region, ofPlane]
  rw [mul_eq (by omega), ok_bind, add_eq (by omega), ok_bind,
    slice_eq (Nat.le_of_lt hplace) (Nat.le_refl _)]
  rfl

theorem ofBytes_eq {width height stride : Nat} {data : Bytes}
    (h : (height - 1) * stride + width < wordSize) :
    ofBytes width height stride data =
      lift ((Plane.ofBytes? width height stride data).map ofPlane) := by
  unfold ofBytes Plane.ofBytes?
  by_cases hstride : stride < width
  · rw [if_pos hstride, dif_pos hstride]
    rfl
  rw [if_neg hstride, dif_neg hstride]
  by_cases hheight : 0 < height
  · rw [if_pos hheight, sub_eq (show 1 ≤ height from hheight), ok_bind, mul_eq (by omega),
      ok_bind, add_eq h, ok_bind]
    by_cases hdata : data.size < (height - 1) * stride + width
    · rw [if_pos hdata, dif_pos ⟨hheight, hdata⟩]
      rfl
    · rw [if_neg hdata, dif_neg fun hshort => hdata hshort.2]
      rfl
  · rw [if_neg hheight, dif_neg fun hshort => hheight hshort.1]
    rfl

/-- A buffer of just its pixels is taken over. -/
theorem ofBytes_packed {width height : Nat} {pixels : Bytes}
    (hpixels : pixels.size = width * height) (hword : pixels.size < wordSize)
    (hheight : 0 < height) :
    ofBytes width height width pixels = .ok (ofPlane (.ofPacked width height pixels hpixels)) := by
  have hextent : (height - 1) * width + width = pixels.size := by
    rw [hpixels, ← Nat.succ_mul, Nat.succ_eq_add_one, Nat.sub_add_cancel hheight, Nat.mul_comm]
  rw [ofBytes_eq (hextent ▸ hword), Plane.ofBytes?_eq_ofPacked hpixels]
  rfl

/-- A row of the buffer is the row of the pixels. -/
theorem extract_row (p : Plane) {y : Nat} (hy : y < p.height) :
    p.data.extract (y * p.stride) (y * p.stride + p.width) =
      p.toPacked.extract (y * p.width) ((y + 1) * p.width) := by
  have hrow := p.row_le_size hy
  have hrows : (y + 1) * p.width ≤ p.width * p.height := by
    rw [Nat.mul_comm p.width]
    exact Nat.mul_le_mul_right p.width hy
  rw [Nat.succ_mul] at hrows ⊢
  apply bytes_ext
  · simp only [Array.size_extract, Plane.size_toPacked]
    omega
  · intro x hx
    have hx : x < p.width := by
      rw [Array.size_extract] at hx
      omega
    have hpixel := Plane.getD_toPacked p hx hy
    simp only [Plane.get, Plane.window, Window.index] at hpixel
    rw [getD_extract _ (by omega), getD_extract _ (by omega)]
    exact hpixel.symm

theorem toPacked_eq (p : Plane) (hdata : p.data.size < wordSize) :
    (ofPlane p).toPacked = .ok p.toPacked := by
  have hrows : loop (fun y out => do return out ++ (← (ofPlane p).row y)) p.height
      (p.toPacked.extract 0 (0 * p.width)) = .ok (p.toPacked.extract 0 (p.height * p.width)) := by
    refine loop_eq (f := fun y => p.toPacked.extract 0 (y * p.width)) fun y hy => ?_
    have hroom := p.row_le_size hy
    simp only [row, ofPlane]
    rw [mul_eq (by omega), ok_bind, add_eq (by omega), ok_bind,
      slice_eq (Nat.le_add_right _ _) hroom, ok_bind, extract_row p hy]
    simp [Array.extract_append_extract, Nat.succ_mul]
  have hstart : p.toPacked.extract 0 (0 * p.width) = #[] := by simp
  have hdone : p.toPacked.extract 0 (p.height * p.width) = p.toPacked := by
    rw [Nat.mul_comm, ← Plane.size_toPacked, Array.extract_size]
  rw [hstart, hdone] at hrows
  rw [toPacked]
  simp only [ofPlane] at hrows ⊢
  rw [mul_eq (Nat.lt_of_le_of_lt p.area_le_size hdata), ok_bind, hrows]

section Blit

variable (p : Plane) {x y width height srcStride : Nat} {src : Bytes}

/-- The buffer after the first `n` pixels of a block are copied. -/
def blitted (x y width height : Nat) (src : Bytes) (srcStride n : Nat) : Bytes :=
  (⟨width, height, p.stride⟩ : Window).scatterTo p.data (p.window.index x y)
    ((⟨width, height, srcStride⟩ : Window).gather src 0) n

theorem size_blitted (n : Nat) :
    (blitted p x y width height src srcStride n).size = p.data.size :=
  Window.size_scatterTo _ _ _ _ _

theorem blitted_succ {k i : Nat} (hk : k < height) (hi : i < width) :
    (blitted p x y width height src srcStride (k * width + i)).setIfInBounds
        ((y + k) * p.stride + x + i) (src.getD (k * srcStride + i) 0) =
      blitted p x y width height src srcStride (k * width + (i + 1)) := by
  have harea : k * width + i < width * height := by
    have hrows : (k + 1) * width ≤ height * width := Nat.mul_le_mul_right width hk
    rw [Nat.succ_mul, Nat.mul_comm height] at hrows
    omega
  have hsource := Window.place_index ⟨width, height, srcStride⟩ hi k
  have hpixel := Window.getD_gather ⟨width, height, srcStride⟩ src 0 harea
  have htarget := Window.place_index ⟨width, height, p.stride⟩ hi k
  simp only [Window.index] at hsource htarget
  rw [hsource, Nat.zero_add] at hpixel
  have hplace : (y + k) * p.stride + x + i =
      p.window.index x y + (⟨width, height, p.stride⟩ : Window).place (k * width + i) := by
    simp only [htarget, Plane.window, Window.index, Nat.add_mul]
    omega
  rw [blitted, blitted, ← Nat.add_assoc, Window.scatterTo_succ, hpixel, hplace]

theorem blitRow_eq (hx : x + width ≤ p.width) (hy : y + height ≤ p.height)
    (hdata : p.data.size < wordSize) (hheight : p.height < wordSize) (hsrc : src.size < wordSize)
    {k : Nat} (hk : k < height) (hrow : k * srcStride + width ≤ src.size) :
    (ofPlane p).blitRow x y width src srcStride k
        (blitted p x y width height src srcStride (k * width)) =
      .ok (blitted p x y width height src srcStride ((k + 1) * width)) := by
  have hroom := p.row_le_size (y := y + k) (by omega)
  have hsize (n : Nat) : (blitted p x y width height src srcStride n).size = p.data.size :=
    size_blitted p n
  have hloop : loop (fun i data => do
      store data ((y + k) * p.stride + x + i)
        (← fetch (src.extract (k * srcStride) (k * srcStride + width)) i)) width
        (blitted p x y width height src srcStride (k * width + 0)) =
      .ok (blitted p x y width height src srcStride (k * width + width)) := by
    refine loop_eq (f := fun i => blitted p x y width height src srcStride (k * width + i))
      fun i hi => ?_
    have hlt : i < (src.extract (k * srcStride) (k * srcStride + width)).size := by
      rw [Array.size_extract]
      omega
    have hpixel : (src.extract (k * srcStride) (k * srcStride + width)).getD i 0 =
        src.getD (k * srcStride + i) 0 := by
      have hlt' : k * srcStride + i < src.size := by omega
      have hpart : i < min (k * srcStride + width) src.size - k * srcStride := by omega
      simp [Array.getD_eq_getD_getElem?, hpart, hlt']
    rw [fetch_eq_getD hlt 0, ok_bind, hpixel, store_eq (by rw [hsize]; omega),
      blitted_succ p hk hi]
  simp only [blitRow, ofPlane]
  rw [add_eq (by omega), ok_bind, mul_eq (by omega), ok_bind, add_eq (by omega), ok_bind,
    slice_eq (Nat.le_add_right _ _) (by rw [hsize]; exact hroom), ok_bind, add_eq (by omega),
    ok_bind, slice_eq (Nat.le_add_right _ _) (by rw [Array.size_extract, hsize]; omega), ok_bind,
    mul_eq (by omega), ok_bind, add_eq (by omega), ok_bind,
    slice_eq (Nat.le_add_right _ _) hrow, ok_bind, ensure_eq (by
      simp only [Array.size_extract, hsize]
      omega), ok_bind, Nat.succ_mul]
  exact hloop

/-- Copying a block into a rectangle of a plane. -/
theorem blit_eq (hx : x + width ≤ p.width) (hy : y + height ≤ p.height)
    (hdata : p.data.size < wordSize) (hheight : p.height < wordSize) (hsrc : src.size < wordSize)
    (hrows : ∀ k, k < height → k * srcStride + width ≤ src.size) :
    (ofPlane p).blit x y width height src srcStride =
      .ok (ofPlane (p.blit x y width height src srcStride)) := by
  have hloop := loop_eq (f := fun k => blitted p x y width height src srcStride (k * width))
    fun k hk => blitRow_eq p hx hy hdata hheight hsrc hk (hrows k hk)
  have hstart : blitted p x y width height src srcStride (0 * width) = p.data := by
    rw [Nat.zero_mul]
    rfl
  have hdone : blitted p x y width height src srcStride (height * width) =
      (p.blit x y width height src srcStride).data := by
    rw [Nat.mul_comm, Plane.blit, Plane.data_paste]
    rfl
  rw [hstart, hdone] at hloop
  rw [blit]
  have hrun : loop ((ofPlane p).blitRow x y width src srcStride) height (ofPlane p).data =
      .ok (p.blit x y width height src srcStride).data := hloop
  rw [hrun]
  cases p
  rfl

end Blit

end Canvas

theorem chromaSize_eq (f : ChromaFormat) (width height : Nat) :
    chromaSize f width height = .ok (f.chromaSize width height) := by
  obtain ⟨hfactorX, hfactorY⟩ := f.factors_pos
  rw [chromaSize, divCeil_eq hfactorX, ok_bind, divCeil_eq hfactorY]
  rfl

namespace Picture

/-- Three canvases make a picture just when their planes make a frame. -/
theorem ofPlanes_eq (chroma : ChromaFormat) (planes : Channels Plane) :
    ofPlanes chroma (planes.map Canvas.ofPlane) =
      lift ((Frame.ofPlanes? chroma planes).map ofFrame) := by
  have hsize : chromaSize chroma (planes.map Canvas.ofPlane).luma.width
      (planes.map Canvas.ofPlane).luma.height =
        .ok (chroma.chromaSize planes.luma.width planes.luma.height) := chromaSize_eq _ _ _
  rw [ofPlanes, hsize, ok_bind]
  unfold Frame.ofPlanes?
  by_cases ha : (planes.chromaA.width, planes.chromaA.height) =
      chroma.chromaSize planes.luma.width planes.luma.height
  · by_cases hb : (planes.chromaB.width, planes.chromaB.height) =
        chroma.chromaSize planes.luma.width planes.luma.height
    · simp only [Channels.map, Canvas.ofPlane, ha, hb, ne_eq, not_true_eq_false, if_false,
        dif_pos]
      rfl
    · simp only [Channels.map, Canvas.ofPlane, ha, hb, ne_eq, not_true_eq_false, if_false,
        not_false_eq_true, if_true, dif_pos, dif_neg]
      rfl
  · simp only [Channels.map, Canvas.ofPlane, ha, ne_eq, not_false_eq_true, if_true, dif_neg]
    rfl

end Picture

end Machine

end HopCodec
