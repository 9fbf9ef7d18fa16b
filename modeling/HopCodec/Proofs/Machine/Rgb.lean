/-
Conversion from RGB pixels on the machine.  The pass over the pixels fills its buffers from the
first place to the last one; the pixels of a chroma sample lie in the image, so their sums are the
folds that the plain conversion averages.
-/
import HopCodec.Machine.Rgb
import HopCodec.Proofs.Machine.Canvas

namespace HopCodec

/-- The pixels that share a sample begin within the side. -/
theorem mul_lt_of_lt_ceilDiv {c len factor : Nat} (hfactor : 0 < factor)
    (h : c < ceilDiv len factor) : c * factor < len := by
  have hle := Nat.mul_le_of_le_div factor (c + 1) (len + factor - 1) h
  rw [Nat.succ_mul] at hle
  omega

theorem ChromaFormat.factors_le (f : ChromaFormat) : f.factors.1 ≤ 2 ∧ f.factors.2 ≤ 2 := by
  cases f <;> decide

namespace Machine

/-- A loop whose steps fold items into the state. -/
theorem loop_foldl {α σ : Type} {g : σ → α → σ} {k : Nat → α} {step : Nat → σ → Run σ}
    {n : Nat} {s : σ} (h : ∀ i, i < n → ∀ t, step i t = .ok (g t (k i))) :
    loop step n s = .ok (((List.range n).map k).foldl g s) := by
  induction n with
  | zero => rfl
  | succ n ih =>
      rw [loop_succ, ih fun i hi => h i (Nat.lt_succ_of_lt hi), ok_bind, h n (Nat.lt_succ_self n),
        List.range_succ, List.map_append, List.foldl_append]
      rfl

/-- Replacing all items of a buffer by values of their places. -/
theorem updated_replicate {α : Type} (n : Nat) (x : α) (f : Nat → α) :
    updated (Array.replicate n x) (fun i _ => f i) n = Array.ofFn fun i : Fin n => f i := by
  have h := updated_size (Array.replicate n x) fun i _ => f i
  rw [Array.size_replicate] at h
  rw [h]
  apply Array.ext <;> simp

/-- Storing the value of a place behind the places before it. -/
theorem store_updated {α : Type} {n i : Nat} (hi : i < n) (x : α) (f : Nat → α) :
    store (updated (Array.replicate n x) (fun i _ => f i) i) i (f i) =
      .ok (updated (Array.replicate n x) (fun i _ => f i) (i + 1)) := by
  have hsize : i < (Array.replicate n x).size := by rwa [Array.size_replicate]
  rw [store_eq (by rwa [size_updated]), ← updated_succ _ _ hsize]

namespace Rgb

open Single
open HopCodec.Rgb (pixelAt mean sharing chromaPixels Pixel.luma Pixel.blueness Pixel.redness)

theorem singles_eq {count : Nat} (h : count < allocationLimit) :
    singles count = .ok (Array.replicate count 0.0) := by
  have hword : 4 * allocationLimit < wordSize / 2 := by decide
  rw [singles, ensure_eq (by omega)]
  rfl

section Pixels

variable {rgb : Bytes} {count : Nat}

/-- The buffers after the first `k` pixels are converted. -/
def converted (rgb : Bytes) (count k : Nat) : Components where
  luma := updated (Array.replicate count 0) (fun i _ => toPixel (pixelAt rgb i).luma) k
  blueness := updated (Array.replicate count 0.0) (fun i _ => (pixelAt rgb i).blueness) k
  redness := updated (Array.replicate count 0.0) (fun i _ => (pixelAt rgb i).redness) k

theorem convertPixel_eq (hrgb : count * 3 ≤ rgb.size) (hword : count * 3 < wordSize) {i : Nat}
    (hi : i < count) : convertPixel rgb i (converted rgb count i) =
      .ok (converted rgb count (i + 1)) := by
  have hfetch (k : Nat) (hk : k < 3) :
      fetch (rgb.extract (3 * i) (3 * i + 3)) k = .ok (rgb.getD (3 * i + k) 0) := by
    rw [fetch_eq_getD (by rw [Array.size_extract]; omega) 0, getD_extract _ (by omega)]
  rw [convertPixel, mul_eq (by omega), ok_bind, add_eq (by omega), ok_bind,
    slice_eq (Nat.le_add_right _ _) (by omega), ok_bind, hfetch 0 (by decide), ok_bind,
    hfetch 1 (by decide), ok_bind, hfetch 2 (by decide), ok_bind]
  have hluma := store_updated hi 0 fun i => toPixel (pixelAt rgb i).luma
  have hblueness := store_updated hi 0.0 fun i => (pixelAt rgb i).blueness
  have hredness := store_updated hi 0.0 fun i => (pixelAt rgb i).redness
  simp only [pixelAt] at hluma hblueness hredness
  simp only [converted, pixelAt, hluma, hblueness, hredness, ok_bind]
  rfl

/-- All pixels converted. -/
theorem loop_convertPixel (hrgb : count * 3 ≤ rgb.size) (hword : count * 3 < wordSize) :
    loop (convertPixel rgb) count
        ⟨Array.replicate count 0, Array.replicate count 0.0, Array.replicate count 0.0⟩ =
      .ok (converted rgb count count) := by
  have hloop := loop_eq (f := converted rgb count) fun i hi => convertPixel_eq hrgb hword hi
  simpa [converted] using hloop

end Pixels

section Samples

/-- The sums of both components are those of each component alone. -/
theorem foldl_add_eq (blueness redness : Nat → Float32) (pixels : List Nat) (s : Sums) :
    let t := pixels.foldl (fun s k => s.add (blueness k) (redness k)) s
    (t.blueness, t.count) = (pixels.map blueness).foldl
        (fun (sum, n) v => (sum + v, n + 1.0)) (s.blueness, s.count) ∧
      (t.redness, t.count) = (pixels.map redness).foldl
        (fun (sum, n) v => (sum + v, n + 1.0)) (s.redness, s.count) := by
  induction pixels generalizing s with
  | nil => exact ⟨rfl, rfl⟩
  | cons k rest ih => exact ih (s.add (blueness k) (redness k))

def sumsOver (rgb : Bytes) (pixels : List Nat) : Sums :=
  pixels.foldl (fun s k => s.add (pixelAt rgb k).blueness (pixelAt rgb k).redness) .zero

/-- What the sums over some pixels average to. -/
theorem sumsOver_mean (rgb : Bytes) (pixels : List Nat) :
    (sumsOver rgb pixels).blueness / (sumsOver rgb pixels).count =
        mean (pixels.map fun k => (pixelAt rgb k).blueness) ∧
      (sumsOver rgb pixels).redness / (sumsOver rgb pixels).count =
        mean (pixels.map fun k => (pixelAt rgb k).redness) := by
  obtain ⟨hblueness, hredness⟩ := foldl_add_eq (fun k => (pixelAt rgb k).blueness)
    (fun k => (pixelAt rgb k).redness) pixels .zero
  simp only [Sums.zero] at hblueness hredness
  rw [mean, mean, ← hblueness, ← hredness]
  exact ⟨rfl, rfl⟩

variable {rgb : Bytes} {width height : Nat} {chroma : ChromaFormat}
  (hroom : width * height < allocationLimit)

include hroom

/-- The component of a pixel is in its place. -/
theorem addPixel_eq {x y : Nat} (hx : x < width) (hy : y < height) (s : Sums) :
    addPixel (converted rgb (width * height) (width * height)) width x y s =
      .ok (s.add (pixelAt rgb (y * width + x)).blueness
        (pixelAt rgb (y * width + x)).redness) := by
  have hword : allocationLimit < wordSize := by decide
  obtain ⟨hplace, -, -⟩ := raster_index hx hy
  simp only [addPixel, converted, updated_replicate]
  rw [mul_eq (by omega), ok_bind, Machine.add_eq (by omega), ok_bind,
    fetch_eq (by simpa using hplace), ok_bind, fetch_eq (by simpa using hplace)]
  simp

omit hroom in
/-- The pixels along a side that share a sample lie where the machine can count to. -/
theorem range_eq {c len factor : Nat} (hlen : len < allocationLimit) (hfactor : 0 < factor)
    (hfactor' : factor ≤ 2) (hc : c < ceilDiv len factor) :
    mul c factor = .ok (c * factor) ∧ Machine.add c 1 = .ok (c + 1) ∧
      mul (c + 1) factor = .ok ((c + 1) * factor) := by
  have hword : 4 * allocationLimit < wordSize := by decide
  have hbegin := mul_lt_of_lt_ceilDiv hfactor hc
  have hle := ceilDiv_le len hfactor
  have hend : (c + 1) * factor = c * factor + factor := Nat.succ_mul c factor
  exact ⟨mul_eq (by omega), add_eq (by omega), mul_eq (by omega)⟩

/-- The sums over the pixels that share a sample. -/
theorem sumSample_eq {cx cy : Nat} (hx : cx < (chroma.chromaSize width height).1)
    (hy : cy < (chroma.chromaSize width height).2) :
    sumSample (converted rgb (width * height) (width * height)) chroma.factors width height cx cy =
      .ok (sumsOver rgb (sharing chroma width height cx cy)) := by
  obtain ⟨hfactorX, hfactorY⟩ := chroma.factors_pos
  obtain ⟨hfactorX', hfactorY'⟩ := chroma.factors_le
  have hbeginX := mul_lt_of_lt_ceilDiv hfactorX hx
  have hbeginY := mul_lt_of_lt_ceilDiv hfactorY hy
  have hwidth : width ≤ width * height := Nat.le_mul_of_pos_right width (by omega)
  have hheight : height ≤ width * height := Nat.le_mul_of_pos_left height (by omega)
  obtain ⟨hleft, hnextX, hright⟩ := range_eq (by omega) hfactorX hfactorX' hx
  obtain ⟨htop, hnextY, hbottom⟩ := range_eq (by omega) hfactorY hfactorY' hy
  let left := cx * chroma.factors.1
  let top := cy * chroma.factors.2
  let g (s : Sums) (k : Nat) : Sums := s.add (pixelAt rgb k).blueness (pixelAt rgb k).redness
  let columns := min ((cx + 1) * chroma.factors.1) width - left
  let row (s : Sums) (y : Nat) : Sums :=
    ((List.range columns).map fun i => y * width + (left + i)).foldl g s
  simp only [sumSample, htop, hnextY, hbottom, hleft, hnextX, hright, ok_bind]
  rw [loop_foldl (g := row) (k := fun j => top + j)]
  · simp only [sumsOver, sharing, List.foldl_flatMap, List.foldl_map, row, g]
    rfl
  · intro j hj t
    exact loop_foldl (g := g) fun i hi s => addPixel_eq hroom (by omega) (by omega) s

def sampleAt (rgb : Bytes) (width height : Nat) (chroma : ChromaFormat)
    (component : HopCodec.Rgb.Pixel → Float32) (i : Nat) : UInt8 :=
  let chromaW := (chroma.chromaSize width height).1
  toPixel (mean ((sharing chroma width height (i % chromaW) (i / chromaW)).map
    fun k => component (pixelAt rgb k)))

/-- The chroma planes after the first `k` samples are averaged. -/
def averaged (rgb : Bytes) (width height : Nat) (chroma : ChromaFormat) (k : Nat) : Bytes × Bytes :=
  let size := chroma.chromaSize width height
  let blank := Array.replicate (size.1 * size.2) (0 : UInt8)
  (updated blank (fun i _ => sampleAt rgb width height chroma Pixel.blueness i) k,
    updated blank (fun i _ => sampleAt rgb width height chroma Pixel.redness i) k)

theorem setSample_eq {i : Nat}
    (hi : i < (chroma.chromaSize width height).2 * (chroma.chromaSize width height).1) :
    setSample (converted rgb (width * height) (width * height)) chroma.factors width height
        (chroma.chromaSize width height).1 (i % (chroma.chromaSize width height).1)
        (i / (chroma.chromaSize width height).1) (averaged rgb width height chroma i) =
      .ok (averaged rgb width height chroma (i + 1)) := by
  have hword : allocationLimit < wordSize := by decide
  have harea := chroma.chromaArea_le width height
  rw [Nat.mul_comm] at hi
  have hx := BlockGrid.mod_lt_of_lt_mul hi
  have hy := BlockGrid.div_lt_of_lt_mul hi
  have hplace := Nat.div_add_mod' i (chroma.chromaSize width height).1
  let pixels := sharing chroma width height (i % (chroma.chromaSize width height).1)
    (i / (chroma.chromaSize width height).1)
  obtain ⟨hblueness, hredness⟩ := sumsOver_mean rgb pixels
  have ha : toPixel ((sumsOver rgb pixels).blueness / (sumsOver rgb pixels).count) =
      sampleAt rgb width height chroma Pixel.blueness i := congrArg toPixel hblueness
  have hb : toPixel ((sumsOver rgb pixels).redness / (sumsOver rgb pixels).count) =
      sampleAt rgb width height chroma Pixel.redness i := congrArg toPixel hredness
  rw [setSample, sumSample_eq hroom hx hy, ok_bind, mul_eq (by omega), ok_bind,
    Machine.add_eq (by omega), ok_bind, hplace, ha, hb]
  simp only [averaged, store_updated hi, ok_bind, pure_eq_ok]

/-- All samples averaged. -/
theorem loop_setSample :
    loop (fun cy => loop (fun cx => setSample (converted rgb (width * height) (width * height))
        chroma.factors width height (chroma.chromaSize width height).1 cx cy)
        (chroma.chromaSize width height).1) (chroma.chromaSize width height).2
        (Array.replicate ((chroma.chromaSize width height).1 * (chroma.chromaSize width height).2) 0,
          Array.replicate
            ((chroma.chromaSize width height).1 * (chroma.chromaSize width height).2) 0) =
      .ok (chromaPixels rgb width height chroma Pixel.blueness,
        chromaPixels rgb width height chroma Pixel.redness) := by
  have hloop := loop_eq (f := averaged rgb width height chroma) fun i hi => setSample_eq hroom hi
  rw [loop_grid]
  simp only [averaged, updated_zero] at hloop
  rw [hloop, Nat.mul_comm (chroma.chromaSize width height).2]
  simp only [updated_replicate]
  rfl

end Samples

/-- Converting on the machine fails only as the plain conversion does. -/
theorem toPicture_eq {rgb : Bytes} {width height : Nat} (chroma : ChromaFormat)
    (hword : width * height * 3 < wordSize) :
    toPicture rgb width height chroma =
      lift ((HopCodec.Rgb.toFrame rgb width height chroma).map Picture.ofFrame) := by
  have hlimit : allocationLimit < wordSize := by decide
  unfold toPicture HopCodec.Rgb.toFrame
  rw [mul_eq (by omega), ok_bind, mul_eq hword, ok_bind]
  by_cases hshort : rgb.size < width * height * 3
  · rw [if_pos hshort, if_pos hshort]
    rfl
  rw [if_neg hshort, if_neg hshort]
  obtain hroom | hfull := Nat.lt_or_ge (width * height) allocationLimit
  · have hroom' := Nat.lt_of_le_of_lt (chroma.chromaArea_le width height) hroom
    have hpixels := loop_convertPixel (Nat.not_lt.mp hshort) hword
    have hluma : (Array.ofFn fun i : Fin (width * height) =>
        toPixel (pixelAt rgb i).luma).size = width * height := Array.size_ofFn
    have hchroma (component : HopCodec.Rgb.Pixel → Float32) :
        (chromaPixels rgb width height chroma component).size =
          (chroma.chromaSize width height).1 * (chroma.chromaSize width height).2 :=
      Array.size_ofFn
    have hframe := Picture.ofPlanes_eq chroma ⟨.ofPacked width height _ hluma,
      .ofPacked _ _ _ (hchroma Pixel.blueness), .ofPacked _ _ _ (hchroma Pixel.redness)⟩
    rw [Canvas.new_of_room hroom, ok_bind, singles_eq hroom, ok_bind, ok_bind, hpixels, ok_bind,
      chromaSize_eq, ok_bind, Canvas.new_of_room hroom', ok_bind, ok_bind, loop_setSample hroom,
      ok_bind, reserve_of_lt hroom]
    simp only [converted, updated_replicate, Plane.ofBytes?_eq_ofPacked hluma,
      Plane.ofBytes?_eq_ofPacked (hchroma _)]
    exact hframe
  · rw [Canvas.new_of_full (by omega) hfull, reserve_of_le hfull]
    rfl

end Rgb

end Machine

end HopCodec
