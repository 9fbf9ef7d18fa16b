/-
The states that a decoder goes through on the machine.  Each of them is told by the run of small
hops that ends with its pixel, and a pixel is looked up with the step behind the one to its left.
-/
import HopCodec.Proofs.Machine.Locality
import HopCodec.Proofs.Prediction.SmallRuns

namespace HopCodec

namespace Predictor

variable (p : Predictor) (width : Nat) (seed : UInt8)

/-- The step of the first column is that of a fresh row, the step of any other pixel is the one
behind the pixel to its left. -/
theorem step_stateBefore_scan (choice : HopChoice) {x y count : Nat} (hx : x < width)
    (h : y * width + x < count) :
    let step := (stateBefore width (p.scan width seed choice (y * width + x))).step
    (x = 0 → step = 7) ∧
      ∀ left, x = left + 1 →
        ((p.scan width seed choice count).states[y * width + left]?).map Adaptation.step =
          some step := by
  constructor
  · rintro rfl
    rw [Nat.add_zero, stateBefore_scan_column_zero]
    rfl
  · rintro left rfl
    rw [p.getElem?_states_left width seed choice hx (by omega)]
    rfl

/-- The value of a pixel behind the corner is that of its hop, on the ladder that it is looked up
with. -/
theorem value_chooseFrom {hops : Array Hop} {i count : Nat} {hop : Hop} (hpos : 0 < i)
    (hi : i < count) (hhop : hops[i]? = some hop) :
    (p.scan width seed (chooseFrom hops) count).value i =
      p.tables.ladder p.ratio
        (stateBefore width (p.scan width seed (chooseFrom hops) i)).step
        (p.predict width (p.scan width seed (chooseFrom hops) i)) hop := by
  have htaken : p.choiceAt width seed (chooseFrom hops) (chooseFrom hops) i = hop := by
    simp only [choiceAt, chooseFrom, Array.getD_eq_getD_getElem?, hhop, Option.getD_some]
  rw [Scan.value, p.getElem?_scan_pos width seed _ hpos hi, htaken]
  rfl

end Predictor

namespace Machine

namespace Forecast

section Lookup

variable {f : Forecast} {target : Window} {pixels : Bytes} (seed : UInt8) {hops : Array Hop}
  (hratio : RatioCovered f.ratio) (hsized : f.ladders.Sized) (htarget : Admitted target pixels)
  (hhops : hops.size = target.area)

include hratio hsized htarget hhops

/-- Behind the corner, a decoder stores the value of a hop around its prediction. -/
theorem exists_lookup {i : Nat} (hpos : 0 < i) (hi : i < target.area) :
    ∃ before predicted hop value,
      f.decodeTo seed hops target pixels i = .ok before ∧
      f.predict before.pixels target.stride target.width (i % target.width) (i / target.width) =
        .ok predicted ∧
      hops[i]? = some hop ∧
      fetch (scanned f.plain seed (Predictor.chooseFrom hops) target pixels target.area).pixels
        (target.place i) = .ok value ∧
      f.ladders.value f.ratio (Predictor.stateBefore target.width
        (f.plain.scan target.width seed (Predictor.chooseFrom hops) i)).step predicted hop =
          .ok value := by
  have hrealizes := realizes_plain hsized
  have hfits := htarget.fits
  obtain ⟨hop, hhop⟩ : ∃ hop, hops[i]? = some hop :=
    ⟨_, Array.getElem?_eq_getElem (hhops ▸ hi)⟩
  have hvalue := fetch_scanned f.plain seed (Predictor.chooseFrom hops) hfits hi
  rw [f.plain.value_chooseFrom target.width seed hpos hi hhop] at hvalue
  exact ⟨_, _, hop, _,
    decodeTo_eq f.plain seed hrealizes hfits htarget.counted hratio htarget.area_lt hhops
      (Nat.le_of_lt hi),
    predict_scanned f.plain seed _ hrealizes hfits htarget.counted hpos hi, hhop, hvalue,
    hsized.reads.value hratio (stepCovered_scan f.plain seed _ i) _ hop⟩

end Lookup

/-- A decoder that notes its states notes one for each pixel: where `r` small hops in a row end with
the pixel, counted within its row, the step is `10` if there are none and `11 - r` but no less than
`4` otherwise, and the last hop was small if there are any.  Every pixel behind the corner gets the
value that its hop has on the ladder around its prediction for one step: `7` in the first column,
and elsewhere the step noted to its left.  That step is never below `4` or above `10`. -/
theorem decodeTraced_closed_form {f : Forecast} {target : Window} {pixels : Bytes} (seed : UInt8)
    (hops : Array Hop) (hratio : RatioCovered f.ratio) (hsized : f.ladders.Sized)
    (htarget : Admitted target pixels) (hhops : hops.size = target.width * target.height) :
    ∃ d noted, f.decodeTraced seed hops target pixels = .ok (d, noted) ∧
      (∃ scan, f.plain.decode seed hops target pixels = .ok (scan, d.pixels) ∧
        scan.states = noted) ∧
      noted.size = target.width * target.height ∧
      ∀ x < target.width, ∀ y < target.height,
        let r := smallRun hops target.width x y
        noted[y * target.width + x]? =
          some ⟨if r = 0 then 10 else max 4 (11 - r), decide (0 < r)⟩ ∧
        (0 < x ∨ 0 < y → ∃ before predicted hop value step,
          f.decodeTo seed hops target pixels (y * target.width + x) = .ok before ∧
          f.predict before.pixels target.stride target.width x y = .ok predicted ∧
          hops[y * target.width + x]? = some hop ∧
          fetch d.pixels (y * target.stride + x) = .ok value ∧
          f.ladders.value f.ratio step predicted hop = .ok value ∧
          (x = 0 → step = 7) ∧
          (∀ left, x = left + 1 →
            (noted[y * target.width + left]?).map Adaptation.step = some step) ∧
          4 ≤ step ∧ step ≤ 10) := by
  obtain ⟨hwidth, hheight⟩ := htarget.sides_pos
  let choice := Predictor.chooseFrom hops
  refine ⟨_, _, decodeTraced_eq f.plain seed (realizes_plain hsized) htarget.fits htarget.counted
    hratio htarget.area_lt hwidth hheight hhops, ⟨_, htarget.decode_plain_eq f.plain seed hhops, rfl⟩,
    by simp [Scan.states, Window.area], fun x hx y hy => ?_⟩
  obtain ⟨hi, hcolumn, hrow⟩ := raster_index hx hy
  refine ⟨f.plain.getElem?_states_chooseFrom target.width seed hx hi (Nat.le_of_eq hhops.symm),
    fun hpos => ?_⟩
  obtain ⟨before, predicted, hop, value, hbefore, hpredict, hhop, hvalue, hlookup⟩ :=
    exists_lookup seed hratio hsized htarget hhops (raster_pos hwidth hpos) hi
  rw [hcolumn, hrow] at hpredict
  rw [target.place_index hx] at hvalue
  obtain ⟨hfirst, hleft⟩ := f.plain.step_stateBefore_scan target.width seed choice hx hi
  obtain ⟨hfloor, hceiling⟩ :=
    f.plain.inRange_stateBefore_scan target.width seed choice (y * target.width + x)
  exact ⟨before, predicted, hop, value, _, hbefore, hpredict, hhop, hvalue, hlookup, hfirst, hleft,
    hfloor, hceiling⟩

/-- Three by two pixels.  A run reaches the last pixel of the first row, and the second row starts
anew with a large hop. -/
theorem decodeTraced_closed_form_twoRows :
    Admitted ⟨3, 2, 3⟩ #[9, 9, 9, 9, 9, 9] ∧
      ∃ d noted,
        evenForecast.decodeTraced 80 #[.pos4, .null, .neg1, .pos2, .pos1, .null] ⟨3, 2, 3⟩
          #[9, 9, 9, 9, 9, 9] = .ok (d, noted) ∧
        noted[2]? = some ⟨8, true⟩ ∧ noted[3]? = some ⟨10, false⟩ ∧ noted[5]? = some ⟨9, true⟩ := by
  have htarget : Admitted ⟨3, 2, 3⟩ #[9, 9, 9, 9, 9, 9] := ⟨rfl, by decide⟩
  have hratio : RatioCovered evenForecast.ratio := ⟨by decide, by decide⟩
  obtain ⟨d, noted, hdecode, -, -, hstates⟩ :=
    decodeTraced_closed_form 80 #[.pos4, .null, .neg1, .pos2, .pos1, .null] hratio
      (Ladders.sized_ofTables _) htarget rfl
  exact ⟨htarget, d, noted, hdecode, (hstates 2 (by decide) 0 (by decide)).1,
    (hstates 0 (by decide) 1 (by decide)).1, (hstates 2 (by decide) 1 (by decide)).1⟩

end Forecast

end Machine

end HopCodec
