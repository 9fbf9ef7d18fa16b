/-
Block decoding on the machine touches and depends on nothing but its block.  Bytes outside the
window stay, a pixel follows from the seed and the hops up to its own, and every prediction reads
pixels of the block that have been written already.
-/
import HopCodec.Proofs.Machine.ClosedLoop

namespace HopCodec

namespace Predictor

/-- A pixel of a decoded block depends on no hop behind its own, and not on the first hop. -/
theorem getElem?_scan_agree (p : Predictor) (width : Nat) (seed : UInt8) {hops hops' : Array Hop}
    {i count : Nat} (hi : i < count)
    (h : ∀ j, 0 < j → j ≤ i → hops'[j]? = hops[j]?) :
    (p.scan width seed (chooseFrom hops') count)[i]? =
      (p.scan width seed (chooseFrom hops) count)[i]? := by
  have hsame : p.scan width seed (chooseFrom hops') (i + 1) =
      p.scan width seed (chooseFrom hops) (i + 1) := by
    refine p.scan_congr width seed fun j hpos hj => ?_
    have hhop := h j hpos (Nat.le_of_lt_succ hj)
    simp only [choiceAt, chooseFrom, Array.getD_eq_getD_getElem?, hhop]
  rw [getElem?_scan p width seed _ hi, getElem?_scan p width seed _ hi, hsame]

end Predictor

namespace Machine

namespace Forecast

/-- A window that passes the checks before a scan, in a buffer whose bytes a word counts. -/
structure Admitted (w : Window) (pixels : Bytes) : Prop where
  checked : check w pixels.size = .ok ()
  counted : pixels.size < wordSize

namespace Admitted

variable {w : Window} {pixels : Bytes} (h : Admitted w pixels)

include h

theorem sides_pos : 0 < w.width ∧ 0 < w.height := by
  obtain ⟨hwidth, hheight, -⟩ := fits_of_check h.checked
  exact ⟨hwidth, hheight⟩

theorem fits : w.Fits pixels.size :=
  (fits_of_check h.checked).2.2

theorem area_lt : w.area < wordSize :=
  Nat.lt_of_le_of_lt (h.fits.area_le h.sides_pos.2) h.counted

/-- The plain decoder takes the same windows, with one hop for each pixel. -/
theorem decode_plain_eq (p : Predictor) (seed : UInt8) {hops : Array Hop}
    (hhops : hops.size = w.area) :
    p.decode seed hops w pixels =
      .ok (p.decodeBlock w.width w.height seed hops,
        w.scatter pixels 0 (p.decodeBlock w.width w.height seed hops).values) := by
  have hwidth : w.width ≠ 0 := Nat.ne_of_gt h.sides_pos.1
  have hheight : w.height ≠ 0 := Nat.ne_of_gt h.sides_pos.2
  have hchecked := (w.check_eq_ok_iff pixels.size).mpr ⟨hwidth, hheight, h.fits⟩
  rw [Predictor.decode, hchecked]
  exact if_neg (not_not.mpr hhops)

end Admitted

/-- Predict the pixel in one column and row from what `read` returns for its neighbours. -/
def predictFrom (f : Forecast) (read : Nat → Run UInt8) (stride width x y : Nat) :
    Run UInt8 := do
  let i ← add (← mul y stride) x
  if y = 0 then read (← sub i 1)
  else
    let up ← read (← sub i stride)
    if x = 0 then return up
    else
      let left ← read (← sub i 1)
      if x = (← sub width 1) then blend .average left.toNat up.toNat
      else
        let corner ← read (← add (← sub i stride) 1)
        blend f.prediction left.toNat corner.toNat

theorem predict_eq_predictFrom (f : Forecast) (pixels : Bytes) :
    f.predict pixels = f.predictFrom (fetch pixels) :=
  rfl

/-- Read a byte of the first `count` pixels of a window.  Any other read traps. -/
def fetchWritten (target : Window) (count : Nat) (pixels : Bytes) (place : Nat) : Run UInt8 :=
  if ∃ i < count, target.place i = place then fetch pixels place
  else .error (.trap .outOfBounds)

section Reads

variable {f : Forecast} {target : Window} {x y : Nat}

/-- A prediction reads nothing but pixels before its own: the one to the left, and those above
in its own column and the next. -/
theorem predictFrom_congr {read read' : Nat → Run UInt8} (hstride : target.width ≤ target.stride)
    (hx : x < target.width) (hpos : 0 < x ∨ 0 < y) (hroom : y * target.stride + x < wordSize)
    (h : ∀ column row, column < target.width →
      row * target.width + column < y * target.width + x →
        read (target.index column row) = read' (target.index column row)) :
    f.predictFrom read target.stride target.width x y =
      f.predictFrom read' target.stride target.width x y := by
  have hplace : y * target.stride + x < wordSize := hroom
  simp only [predictFrom, mul_eq (show y * target.stride < wordSize by omega), ok_bind,
    add_eq hplace]
  cases y with
  | zero =>
      have hleft : read (0 * target.stride + x - 1) = read' (0 * target.stride + x - 1) := by
        have hread := h (x - 1) 0 (by omega) (by omega)
        rw [Window.index] at hread
        rwa [show 0 * target.stride + x - 1 = 0 * target.stride + (x - 1) by omega]
      rw [if_pos rfl, if_pos rfl, sub_eq (by omega), ok_bind, ok_bind, hleft]
  | succ y =>
      have hrow : (y + 1) * target.width = y * target.width + target.width := Nat.succ_mul _ _
      have hline : (y + 1) * target.stride = y * target.stride + target.stride :=
        Nat.succ_mul _ _
      have habove : (y + 1) * target.stride + x - target.stride = target.index x y := by
        rw [Window.index]
        omega
      rw [if_neg (Nat.succ_ne_zero y), if_neg (Nat.succ_ne_zero y), sub_eq (by omega), ok_bind,
        ok_bind, habove, h x y hx (by omega)]
      by_cases hfirst : x = 0
      · simp only [hfirst, if_true]
      · have hbefore : (y + 1) * target.stride + x - 1 = target.index (x - 1) (y + 1) := by
          rw [Window.index]
          omega
        simp only [hfirst, if_false]
        refine congrArg (read' _ >>= ·) (funext fun up => ?_)
        rw [sub_eq (by omega), ok_bind, ok_bind, hbefore, h (x - 1) (y + 1) (by omega) (by omega)]
        refine congrArg (read' _ >>= ·) (funext fun left => ?_)
        rw [sub_eq (by omega)]
        simp only [ok_bind]
        by_cases hlast : x = target.width - 1
        · rw [if_pos hlast, if_pos hlast]
        · have hcorner : target.index x y + 1 = target.index (x + 1) y := by
            rw [Window.index, Window.index]
            omega
          have hindex : target.index x y + 1 < wordSize := by
            rw [Window.index]
            omega
          rw [if_neg hlast, if_neg hlast, add_eq hindex, ok_bind, ok_bind, hcorner,
            h (x + 1) y (by omega) (by omega)]

/-- No prediction reads a byte that is not one of the pixels before its own. -/
theorem predictFrom_fetchWritten {pixels : Bytes} (hstride : target.width ≤ target.stride)
    (hx : x < target.width) (hpos : 0 < x ∨ 0 < y) (hroom : y * target.stride + x < wordSize) :
    f.predictFrom (fetchWritten target (y * target.width + x) pixels) target.stride target.width
        x y =
      f.predict pixels target.stride target.width x y := by
  rw [predict_eq_predictFrom]
  refine predictFrom_congr hstride hx hpos hroom fun column row hcolumn hbefore => ?_
  rw [fetchWritten, if_pos ⟨_, hbefore, target.place_index hcolumn row⟩]

end Reads

section Frame

variable (p : Predictor) (seed : UInt8) (choice : HopChoice) {target : Window} {pixels : Bytes}

/-- A scan leaves the bytes outside its window alone. -/
theorem getElem?_scanned_of_ne {k : Nat} (hk : ∀ i, i < target.area → target.place i ≠ k) :
    (scanned p seed choice target pixels target.area).pixels[k]? = pixels[k]? := by
  have hsize : (scanned p seed choice target pixels target.area).pixels.size = pixels.size :=
    Window.size_scatterTo _ _ _ _ _
  have hbyte : (scanned p seed choice target pixels target.area).pixels.getD k 0 =
      pixels.getD k 0 :=
    Window.getD_scatterTo_of_ne _ _ fun i hi => by
      rw [Nat.zero_add]
      exact hk i hi
  by_cases hlt : k < pixels.size
  · rw [Array.getElem?_eq_getElem (hsize ▸ hlt), Array.getElem?_eq_getElem hlt]
    rw [Array.getD_eq_getD_getElem?, Array.getD_eq_getD_getElem?,
      Array.getElem?_eq_getElem (hsize ▸ hlt), Array.getElem?_eq_getElem hlt] at hbyte
    exact congrArg some hbyte
  · rw [Array.getElem?_eq_none (by omega), Array.getElem?_eq_none (by omega)]

end Frame

/-- Rebuilding a block touches and depends on nothing but the block.  It leaves every byte outside
the window as it was, and so does the plain decoder.  A rebuild with the same seed, in whatever
buffer and row spacing, shows the same pixel wherever the hops behind the first one and up to that
pixel are the same.  And where a decoder forms a prediction, it reads none but the pixels of the
block that it has rebuilt. -/
theorem decode_local {f : Forecast} {target : Window} {pixels : Bytes} (seed : UInt8)
    (hops : Array Hop) (hratio : RatioCovered f.ratio) (hsized : f.ladders.Sized)
    (htarget : Admitted target pixels) (hhops : hops.size = target.width * target.height) :
    ∃ d, f.decode seed hops target pixels = .ok d ∧
      (∃ scan, f.plain.decode seed hops target pixels = .ok (scan, d.pixels)) ∧
      d.pixels.size = pixels.size ∧
      (∀ k, (∀ x < target.width, ∀ y < target.height, y * target.stride + x ≠ k) →
        d.pixels[k]? = pixels[k]?) ∧
      (∀ (stride : Nat) (pixels' : Bytes) (hops' : Array Hop),
        Admitted (target.respaced stride) pixels' →
        hops'.size = target.width * target.height →
          ∃ d', f.decode seed hops' (target.respaced stride) pixels' = .ok d' ∧
            ∀ x < target.width, ∀ y < target.height,
              (∀ i, 0 < i → i ≤ y * target.width + x → hops'[i]? = hops[i]?) →
                ∃ value, fetch d.pixels (y * target.stride + x) = .ok value ∧
                  fetch d'.pixels (y * stride + x) = .ok value) ∧
      ∀ x < target.width, ∀ y < target.height, 0 < x ∨ 0 < y →
        ∃ before predicted,
          f.decodeTo seed hops target pixels (y * target.width + x) = .ok before ∧
          f.predict before.pixels target.stride target.width x y = .ok predicted ∧
          f.predictFrom (fetchWritten target (y * target.width + x) before.pixels) target.stride
            target.width x y = .ok predicted := by
  obtain ⟨hwidth, hheight⟩ := htarget.sides_pos
  have hfits := htarget.fits
  have hrealizes := realizes_plain hsized
  refine ⟨_, decode_eq f.plain seed hrealizes hfits htarget.counted hratio htarget.area_lt hwidth
    hheight hhops, ⟨_, htarget.decode_plain_eq f.plain seed hhops⟩,
    Window.size_scatterTo _ _ _ _ _, ?_, ?_, ?_⟩
  · intro k hk
    exact getElem?_scanned_of_ne f.plain seed _ fun i hi =>
      hk _ (Window.mod_width_lt hi) _ (Window.div_width_lt hi)
  · intro stride pixels' hops' hother hhops'
    refine ⟨_, decode_eq f.plain seed hrealizes hother.fits hother.counted hratio hother.area_lt
      hwidth hheight hhops', fun x hx y hy hagree => ?_⟩
    obtain ⟨hi, -, -⟩ := raster_index hx hy
    have hplace : target.place (y * target.width + x) = y * target.stride + x :=
      target.place_index hx y
    have hplace' : (target.respaced stride).place (y * target.width + x) = y * stride + x :=
      (target.respaced stride).place_index hx y
    have hvalue := fetch_scanned f.plain seed (Predictor.chooseFrom hops) hfits hi
    have hvalue' := fetch_scanned f.plain seed (Predictor.chooseFrom hops') hother.fits hi
    have hpixel := f.plain.getElem?_scan_agree target.width seed hi hagree
    rw [hplace] at hvalue
    rw [hplace'] at hvalue'
    refine ⟨_, hvalue, hvalue'.trans ?_⟩
    exact congrArg (fun pixel => Except.ok ((pixel.map ScannedPixel.value).getD 0)) hpixel
  · intro x hx y hy hpos
    obtain ⟨hi, hcolumn, hrow⟩ := raster_index hx hy
    have hbefore := decodeTo_eq f.plain seed hrealizes hfits htarget.counted hratio htarget.area_lt
      hhops (Nat.le_of_lt hi)
    have hlater := raster_pos hwidth hpos
    have hpredict := predict_scanned f.plain seed (Predictor.chooseFrom hops) hrealizes hfits
      htarget.counted hlater hi
    rw [hcolumn, hrow] at hpredict
    have hroom : y * target.stride + x < wordSize := by
      have hplace := place_lt hfits hi
      rw [target.place_index hx, Window.index] at hplace
      exact Nat.lt_trans hplace htarget.counted
    exact ⟨_, _, hbefore, hpredict,
      (predictFrom_fetchWritten hfits.1 hx hpos hroom).trans hpredict⟩

/-- Two rows of two pixels, two bytes apart in one buffer and packed in another.  The two runs
differ in their first and their last hop, which the pixel below the corner does not depend on. -/
theorem decode_local_twoRows :
    Admitted ⟨2, 2, 4⟩ #[9, 9, 9, 9, 9, 9] ∧
      Admitted ((⟨2, 2, 4⟩ : Window).respaced 2) #[1, 2, 3, 4] ∧
      ∃ d d' value,
        evenForecast.decode 80 #[.null, .pos1, .neg2, .pos3] ⟨2, 2, 4⟩ #[9, 9, 9, 9, 9, 9] =
          .ok d ∧ d.pixels[2]? = some 9 ∧
        evenForecast.decode 80 #[.pos4, .pos1, .neg2, .null] ((⟨2, 2, 4⟩ : Window).respaced 2)
          #[1, 2, 3, 4] = .ok d' ∧
        fetch d.pixels 4 = .ok value ∧ fetch d'.pixels 2 = .ok value := by
  have htarget : Admitted ⟨2, 2, 4⟩ #[9, 9, 9, 9, 9, 9] := ⟨rfl, by decide⟩
  have hother : Admitted ((⟨2, 2, 4⟩ : Window).respaced 2) #[1, 2, 3, 4] := ⟨rfl, by decide⟩
  have hratio : RatioCovered evenForecast.ratio := ⟨by decide, by decide⟩
  obtain ⟨d, hdecode, -, -, hframe, hagree, -⟩ :=
    decode_local 80 #[.null, .pos1, .neg2, .pos3] hratio (Ladders.sized_ofTables _) htarget rfl
  obtain ⟨d', hdecode', hpixels⟩ := hagree 2 _ #[.pos4, .pos1, .neg2, .null] hother rfl
  obtain ⟨value, hvalue, hvalue'⟩ := hpixels 0 (by decide) 1 (by decide) fun i hpos hi => by
    obtain rfl | rfl : i = 1 ∨ i = 2 := by
      simp only at hi
      omega
    · rfl
    · rfl
  exact ⟨htarget, hother, d, d', value, hdecode, hframe 2 (by decide), hdecode', hvalue, hvalue'⟩

end Forecast

end Machine

end HopCodec
