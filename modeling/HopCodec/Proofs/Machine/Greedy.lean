/-
Greedy coding on the machine.  Where the table of nearest hops has been filled from ordered
ladders, the hop of each pixel brings the decoder as close to the original as any hop could, in the
state in which the decoder comes to that pixel.
-/
import HopCodec.Proofs.Ladder.Nearest
import HopCodec.Proofs.Machine.ClosedLoop
import HopCodec.Proofs.Machine.Filling

namespace HopCodec.Machine

/-- Looking up a target finds the closest hop on the ladder. -/
theorem Ladders.Filled.closest {l : Ladders} (h : l.Filled) {ratio step : Nat}
    (hratio : RatioCovered ratio) (hstep : StepCovered step) (target predicted : UInt8) :
    (l.tables.ladder ratio step predicted).Closest target
      (l.tables.nearest ratio step target predicted) := by
  have hread := h.getD_nearest.2 hratio hstep target predicted
  have hswept : l.tables.nearest ratio step target predicted =
      (l.tables.ladder ratio step predicted).swept target := by
    simp only [Ladders.tables, hread, Ladders.hopOf_index]
  rw [hswept]
  exact Ladder.closest_swept (h.ordered_ladderOf hratio hstep predicted) target

namespace Forecast

/-- A decoder that comes to pixel `i` offers it the values of a ladder: those around the prediction
that it forms there, at the step of its state.  Every row starts from a fresh state. -/
def Offers (f : Forecast) (target : Window) (i : Nat) (s : Scanning) (l : Ladder) : Prop :=
  ∃ predicted, f.predict s.pixels target.stride target.width (i % target.width)
      (i / target.width) = .ok predicted ∧
    ∀ hop, f.ladders.value f.ratio
      (if i % target.width = 0 then Adaptation.start else s.state).step predicted hop = .ok (l hop)

section Greedy

variable {f : Forecast} {source : Window} {src : Bytes} {stride : Nat} {pixels : Bytes} {i : Nat}

def stepAt (f : Forecast) (source : Window) (src : Bytes) (i : Nat) : Nat :=
  (Predictor.stateBefore source.width (f.codedTo source src i)).step

def predictedAt (f : Forecast) (source : Window) (src : Bytes) (i : Nat) : UInt8 :=
  f.plain.predict source.width (f.codedTo source src i)

def ladderAt (f : Forecast) (source : Window) (src : Bytes) (i : Nat) : Ladder :=
  f.ladders.tables.ladder f.ratio (f.stepAt source src i) (f.predictedAt source src i)

/-- The hop of a pixel is the closest one on the ladder that the pixel is coded on. -/
theorem closest_coded (hratio : RatioCovered f.ratio) (hfilled : f.ladders.Filled) (hpos : 0 < i)
    (hi : i < source.area) :
    ∃ hop, (f.coded source src).hops[i]? = some hop ∧
      (f.coded source src).value i = f.ladderAt source src i hop ∧
      (f.ladderAt source src i).Closest (src.getD (source.place i) 0) hop := by
  have hpixel := f.plain.getElem?_scan_pos source.width (seedOf source src)
    (f.choiceOf source src) hpos hi
  have horiginal := source.getD_gather src 0 hi
  rw [Nat.zero_add] at horiginal
  refine ⟨f.plain.choiceAt source.width (seedOf source src) (f.choiceOf source src)
    (f.choiceOf source src) i, ?_, ?_, ?_⟩
  · rw [Scan.hops, Array.getElem?_map, coded, codedTo, hpixel]
    rfl
  · rw [Scan.value, coded, codedTo, hpixel]
    rfl
  · rw [← horiginal]
    exact hfilled.closest hratio (stepCovered_scan f.plain _ _ i) _ _

variable (hpixels : Accepted (source.respaced stride) pixels)

include hpixels

/-- A decoder that is done shows the values of the plain scan, each pixel at its place. -/
theorem fetch_replayed (hi : i < source.area) :
    fetch (f.replayed source src stride pixels source.area).pixels
        ((source.respaced stride).place i) =
      .ok ((f.coded source src).value i) := by
  have hreplay : f.plain.scan (source.respaced stride).width (seedOf source src)
      (Predictor.chooseFrom (f.coded source src).hops) (source.respaced stride).area =
        f.coded source src := f.replay_coded source src (Nat.le_refl _)
  have hpixel := fetch_scanned f.plain (seedOf source src)
    (Predictor.chooseFrom (f.coded source src).hops) hpixels.fits hi
  rw [hreplay] at hpixel
  exact hpixel

variable (hratio : RatioCovered f.ratio) (hsized : f.ladders.Sized)

include hratio hsized

/-- A decoder on its way through the hops of the plain scan. -/
theorem decodeTo_coded {k : Nat} (hk : k ≤ source.area) :
    f.decodeTo (seedOf source src) (f.coded source src).hops (source.respaced stride) pixels k =
      .ok (f.replayed source src stride pixels k) :=
  decodeTo_eq f.plain _ (realizes_plain hsized) hpixels.fits hpixels.size_lt hratio
    hpixels.area_lt (size_hops_coded f source src) hk

/-- The decoder offers each pixel the ladder that it has been coded on. -/
theorem offers_replayed (hpos : 0 < i) (hi : i < source.area) :
    f.Offers (source.respaced stride) i (f.replayed source src stride pixels i)
      (f.ladderAt source src i) := by
  have hreplay : f.plain.scan (source.respaced stride).width (seedOf source src)
      (Predictor.chooseFrom (f.coded source src).hops) i = f.codedTo source src i :=
    f.replay_coded source src (Nat.le_of_lt hi)
  have hpredicted := predict_scanned f.plain (seedOf source src)
    (Predictor.chooseFrom (f.coded source src).hops) (realizes_plain hsized) hpixels.fits
    hpixels.size_lt hpos hi
  have hbefore : (if i % (source.respaced stride).width = 0 then Adaptation.start
      else (f.replayed source src stride pixels i).state).step = f.stepAt source src i := by
    rw [stepAt, ← hreplay]
    exact congrArg Adaptation.step (stateBefore_eq f.plain (seedOf source src) _).symm
  have hstep : StepCovered (f.stepAt source src i) := stepCovered_scan f.plain _ _ i
  refine ⟨f.predictedAt source src i, ?_, fun hop => ?_⟩
  · rw [hreplay] at hpredicted
    exact hpredicted
  · rw [hbefore]
    exact hsized.reads.value hratio hstep _ hop

end Greedy

/-- Coding a block is greedy.  Where a decoder has rebuilt the pixels before pixel `i`, it offers
pixel `i` the values of a ladder; the hop that the coder has emitted is, in priority order, the
first of those that come closest to the original, and the pixel becomes its value.  No other hop
would bring the pixel closer, and an original that is on the ladder is met. -/
theorem encode_greedy {f : Forecast} {width height srcStride dstStride : Nat} {src dst : Bytes}
    (hratio : RatioCovered f.ratio) (hfilled : f.ladders.Filled)
    (hsrc : Accepted ⟨width, height, srcStride⟩ src)
    (hdst : Accepted ⟨width, height, dstStride⟩ dst) :
    ∃ s seed, f.encode ⟨width, height, srcStride⟩ src ⟨width, height, dstStride⟩ dst = .ok s ∧
      fetch src 0 = .ok seed ∧
      ∀ (stride : Nat) (pixels : Bytes), Accepted ⟨width, height, stride⟩ pixels →
        ∃ d, f.decode seed s.hops ⟨width, height, stride⟩ pixels = .ok d ∧
          f.decodeTo seed s.hops ⟨width, height, stride⟩ pixels (width * height) = .ok d ∧
          ∀ i, 0 < i → i < width * height →
            ∃ before ladder original hop,
              f.decodeTo seed s.hops ⟨width, height, stride⟩ pixels i = .ok before ∧
              f.Offers ⟨width, height, stride⟩ i before ladder ∧
              fetch src ((⟨width, height, srcStride⟩ : Window).place i) = .ok original ∧
              s.hops[i]? = some hop ∧
              fetch d.pixels ((⟨width, height, stride⟩ : Window).place i) = .ok (ladder hop) ∧
              ladder.Closest original hop ∧
              (∀ g, Ladder.distance (ladder hop) original ≤
                Ladder.distance (ladder g) original) ∧
              ∀ g, ladder g = original → ladder hop = original := by
  let source : Window := ⟨width, height, srcStride⟩
  have hsized := hfilled.sized
  have hspaced : Accepted (source.respaced dstStride) dst := hdst
  obtain ⟨s, hencode, hhops, -⟩ := encode_coded hspaced hratio hsized hsrc
  refine ⟨s, _, hencode, fetch_seed hsrc, fun stride pixels hpixels => ?_⟩
  have hblock : Accepted (source.respaced stride) pixels := hpixels
  rw [hhops]
  refine ⟨_, decode_coded hblock hratio hsized,
    decodeTo_coded hblock hratio hsized (Nat.le_refl _), fun i hpos hi => ?_⟩
  obtain ⟨hop, hhop, hvalue, hclosest⟩ : ∃ hop, (f.coded source src).hops[i]? = some hop ∧
      (f.coded source src).value i = f.ladderAt source src i hop ∧
      (f.ladderAt source src i).Closest (src.getD (source.place i) 0) hop :=
    closest_coded hratio hfilled hpos hi
  have hshown : fetch (f.replayed source src stride pixels source.area).pixels
      ((source.respaced stride).place i) = .ok (f.ladderAt source src i hop) := by
    rw [← hvalue]
    exact fetch_replayed hblock hi
  exact ⟨_, f.ladderAt source src i, _, hop, decodeTo_coded hblock hratio hsized (Nat.le_of_lt hi),
    offers_replayed hblock hratio hsized hpos hi, fetch_eq_getD (place_lt hsrc.fits hi) 0, hhop,
    hshown, hclosest, hclosest.distance_le, fun g => hclosest.exact⟩

theorem encode_greedy_twoRows :
    Accepted ⟨2, 2, 3⟩ #[80, 96, 0, 70, 200] ∧ Accepted ⟨2, 2, 2⟩ #[1, 2, 3, 4] ∧
      evenForecast.ladders.Filled ∧
      ∃ s d before ladder hop,
        evenForecast.encode ⟨2, 2, 3⟩ #[80, 96, 0, 70, 200] ⟨2, 2, 2⟩ #[1, 2, 3, 4] = .ok s ∧
        evenForecast.decode 80 s.hops ⟨2, 2, 2⟩ #[1, 2, 3, 4] = .ok d ∧
        evenForecast.decodeTo 80 s.hops ⟨2, 2, 2⟩ #[1, 2, 3, 4] 3 = .ok before ∧
        evenForecast.Offers ⟨2, 2, 2⟩ 3 before ladder ∧ s.hops[3]? = some hop ∧
        fetch d.pixels 3 = .ok (ladder hop) ∧ ladder.Closest 200 hop := by
  have hsrc : Accepted ⟨2, 2, 3⟩ #[80, 96, 0, 70, 200] := ⟨rfl, by decide⟩
  have hdst : Accepted ⟨2, 2, 2⟩ #[1, 2, 3, 4] := ⟨rfl, by decide⟩
  have hratio : RatioCovered evenForecast.ratio := ⟨by decide, by decide⟩
  have hfilled : evenForecast.ladders.Filled :=
    Ladders.filled_ofTables (Tables.swept_ofLadders fun _ => Ladder.ordered_even)
  obtain ⟨s, seed, hencode, hseed, hdecodes⟩ := encode_greedy hratio hfilled hsrc hdst
  cases hseed
  obtain ⟨d, hdecode, -, hpixels⟩ := hdecodes 2 _ hdst
  obtain ⟨before, ladder, original, hop, hbefore, hoffers, horiginal, hhop, hvalue, hclosest, -⟩ :=
    hpixels 3 (by decide) (by decide)
  cases horiginal
  exact ⟨hsrc, hdst, hfilled, s, d, before, ladder, hop, hencode, hdecode, hbefore, hoffers, hhop,
    hvalue, hclosest⟩

end Forecast

end HopCodec.Machine
