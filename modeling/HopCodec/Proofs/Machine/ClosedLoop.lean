/-
The closed loop on the machine.  Whatever the tables hold, a coder leaves behind the pixels that
every decoder of its hops will see, in whatever buffer and row spacing either of them works.
-/
import HopCodec.Proofs.Ladder.Sweep
import HopCodec.Proofs.Machine.Scan

namespace HopCodec

/-- A window of the same sides in rows that are `stride` bytes apart. -/
def Window.respaced (w : Window) (stride : Nat) : Window :=
  ⟨w.width, w.height, stride⟩

namespace Machine

namespace Forecast

/-- A window that passes the checks before a scan, in a buffer that can be had. -/
structure Accepted (w : Window) (pixels : Bytes) : Prop where
  checked : check w pixels.size = .ok ()
  room : pixels.size < allocationLimit

namespace Accepted

variable {w : Window} {pixels : Bytes} (h : Accepted w pixels)

include h

theorem width_pos : 0 < w.width :=
  (fits_of_check h.checked).1

theorem height_pos : 0 < w.height :=
  (fits_of_check h.checked).2.1

theorem fits : w.Fits pixels.size :=
  (fits_of_check h.checked).2.2

theorem area_pos : 0 < w.area :=
  Nat.mul_pos h.width_pos h.height_pos

theorem size_lt : pixels.size < wordSize :=
  Nat.lt_trans h.room (by decide)

theorem area_room : w.area < allocationLimit :=
  Nat.lt_of_le_of_lt (h.fits.area_le h.height_pos) h.room

theorem area_lt : w.area < wordSize :=
  Nat.lt_of_le_of_lt (h.fits.area_le h.height_pos) h.size_lt

theorem checked_plain : w.check pixels.size = .ok () :=
  (w.check_eq_ok_iff pixels.size).mpr
    ⟨Nat.ne_of_gt h.width_pos, Nat.ne_of_gt h.height_pos, h.fits⟩

end Accepted

/-- What a plain coder or decoder returns, as a scan that has come to its end. -/
def finished (result : Scan × Bytes) : Scanning :=
  ⟨result.2, (result.1.back?.map ScannedPixel.state).getD .start, result.1.hops⟩

section Plain

variable {f : Forecast} {p : Predictor} (hf : f.Realizes p) (hratio : RatioCovered p.ratio)
  {target : Window} {pixels : Bytes} (htarget : Accepted target pixels)

include hf hratio htarget

/-- The coder on the machine is the plain one. -/
theorem encode_plain {source : Window} {src : Bytes} (hsource : Accepted source src)
    (hsame : source.width = target.width ∧ source.height = target.height) :
    f.encode source src target pixels = lift ((p.encode source src target pixels).map finished) := by
  have hencode := encode_eq p hf hratio htarget.width_pos htarget.height_pos hsource.fits hsame
    hsource.size_lt htarget.fits htarget.size_lt htarget.area_room
  have hplain : p.encode source src target pixels =
      .ok (p.encodeBlock source.width source.height (source.gather src 0),
        target.scatter pixels 0
          (p.encodeBlock source.width source.height (source.gather src 0)).values) := by
    rw [Predictor.encode, hsource.checked_plain, htarget.checked_plain]
    rfl
  rw [hencode, hplain, hsame.1, hsame.2]
  rfl

/-- The decoder on the machine is the plain one, also where the number of hops is wrong. -/
theorem decode_plain (seed : UInt8) (hops : Array Hop) :
    f.decode seed hops target pixels = lift ((p.decode seed hops target pixels).map finished) := by
  by_cases hhops : hops.size = target.area
  · have hplain : p.decode seed hops target pixels =
        .ok (p.decodeBlock target.width target.height seed hops,
          target.scatter pixels 0 (p.decodeBlock target.width target.height seed hops).values) := by
      rw [Predictor.decode, htarget.checked_plain]
      exact if_neg (not_not.mpr hhops)
    rw [decode_eq p seed hf htarget.fits htarget.size_lt hratio htarget.area_lt htarget.width_pos
      htarget.height_pos hhops, hplain]
    rfl
  · have hplain : p.decode seed hops target pixels = .error (.argument .hopCount) := by
      rw [Predictor.decode, htarget.checked_plain]
      exact if_pos hhops
    have harea : target.width * target.height < wordSize := htarget.area_lt
    have hwrong : hops.size ≠ target.width * target.height := hhops
    rw [decode, htarget.checked, ok_bind, mul_eq harea, ok_bind, if_pos hwrong, hplain]
    rfl

end Plain

/-- The predictor that a forecast realizes with the tables in its buffers. -/
def plain (f : Forecast) : Predictor :=
  ⟨f.ladders.tables, f.ratio, f.prediction⟩

theorem realizes_plain {f : Forecast} (h : f.ladders.Sized) : f.Realizes f.plain :=
  ⟨h.reads, rfl, rfl⟩

def seedOf (source : Window) (src : Bytes) : UInt8 :=
  (source.gather src 0).getD 0 0

def choiceOf (f : Forecast) (source : Window) (src : Bytes) : HopChoice :=
  f.plain.chooseNearest (source.gather src 0)

/-- The plain scan of the first `k` pixels that a window shows. -/
def codedTo (f : Forecast) (source : Window) (src : Bytes) (k : Nat) : Scan :=
  f.plain.scan source.width (seedOf source src) (f.choiceOf source src) k

/-- The plain scan of all pixels that a window shows. -/
def coded (f : Forecast) (source : Window) (src : Bytes) : Scan :=
  f.codedTo source src source.area

/-- What a decoder of the hops has written once it has come to the `k`-th pixel. -/
def replayed (f : Forecast) (source : Window) (src : Bytes) (stride : Nat) (pixels : Bytes)
    (k : Nat) : Scanning :=
  scanned f.plain (seedOf source src) (Predictor.chooseFrom (f.coded source src).hops)
    (source.respaced stride) pixels k

theorem size_hops_coded (f : Forecast) (source : Window) (src : Bytes) :
    (f.coded source src).hops.size = source.area :=
  Predictor.size_hops_scan ..

/-- A decoder that is handed the hops of the plain scan repeats it. -/
theorem replay_coded (f : Forecast) (source : Window) (src : Bytes) {k : Nat}
    (hk : k ≤ source.area) :
    f.plain.scan source.width (seedOf source src)
        (Predictor.chooseFrom (f.coded source src).hops) k =
      f.codedTo source src k :=
  Predictor.scan_chooseFrom_hops _ _ _ _ hk

/-- The window that has been scanned shows the values of the plain scan. -/
theorem gather_scanned (p : Predictor) (seed : UInt8) (choice : HopChoice) {target : Window}
    {pixels : Bytes} (hfits : target.Fits pixels.size) :
    target.gather (scanned p seed choice target pixels target.area).pixels 0 =
      (p.scan target.width seed choice target.area).values := by
  apply bytes_ext
  · simp [Scan.values]
  · intro i hi
    rw [Window.size_gather] at hi
    have hroom : 0 + target.place i < pixels.size := by
      rw [Nat.zero_add]
      exact place_lt hfits hi
    rw [target.getD_gather _ _ hi, scanned]
    exact Window.getD_scatterTo_place hfits.1 _ hi (Nat.le_refl _) hroom

section Loop

variable {f : Forecast} {source : Window} {src : Bytes} {stride : Nat} {pixels : Bytes}
  (hpixels : Accepted (source.respaced stride) pixels)

include hpixels

/-- A decoder that is done shows the values of the plain scan. -/
theorem gather_replayed :
    (source.respaced stride).gather (f.replayed source src stride pixels source.area).pixels 0 =
      (f.coded source src).values := by
  have hshown := gather_scanned f.plain (seedOf source src)
    (Predictor.chooseFrom (f.coded source src).hops) hpixels.fits
  have hreplay := f.replay_coded source src (Nat.le_refl _)
  exact hshown.trans (congrArg Scan.values hreplay)

variable (hratio : RatioCovered f.ratio) (hsized : f.ladders.Sized)

include hratio hsized

/-- The coder takes the hops of the plain scan, and leaves its values behind. -/
theorem encode_coded (hsrc : Accepted source src) :
    ∃ s, f.encode source src (source.respaced stride) pixels = .ok s ∧
      s.hops = (f.coded source src).hops ∧
      (source.respaced stride).gather s.pixels 0 = (f.coded source src).values := by
  have hsame : source.width = (source.respaced stride).width ∧
      source.height = (source.respaced stride).height := ⟨rfl, rfl⟩
  have hencode := encode_eq f.plain (realizes_plain hsized) hratio hpixels.width_pos
    hpixels.height_pos hsrc.fits hsame hsrc.size_lt hpixels.fits hpixels.size_lt hpixels.area_room
  exact ⟨_, hencode, rfl, gather_scanned f.plain _ _ hpixels.fits⟩

/-- Both decoders go through the plain scan. -/
theorem decode_coded :
    f.decode (seedOf source src) (f.coded source src).hops (source.respaced stride) pixels =
      .ok (f.replayed source src stride pixels source.area) :=
  decode_eq f.plain _ (realizes_plain hsized) hpixels.fits hpixels.size_lt hratio hpixels.area_lt
    hpixels.width_pos hpixels.height_pos (size_hops_coded f source src)

theorem decodeTraced_coded :
    ∃ trace, f.decodeTraced (seedOf source src) (f.coded source src).hops (source.respaced stride)
        pixels = .ok (f.replayed source src stride pixels source.area, trace) :=
  ⟨_, decodeTraced_eq f.plain _ (realizes_plain hsized) hpixels.fits hpixels.size_lt hratio
    hpixels.area_lt hpixels.width_pos hpixels.height_pos (size_hops_coded f source src)⟩

end Loop

/-- The seed of a block is the first byte of its buffer. -/
theorem fetch_seed {source : Window} {src : Bytes} (h : Accepted source src) :
    fetch src 0 = .ok (seedOf source src) := by
  have hplace : source.place 0 = 0 := by simp [Window.place, Window.index]
  have hfirst := place_lt h.fits h.area_pos
  rw [hplace] at hfirst
  rw [seedOf, source.getD_gather _ _ h.area_pos, Nat.zero_add, hplace]
  exact fetch_eq_getD hfirst 0

/-- Coding a block takes one hop per pixel, the first of them null.  Rebuilding the block from its
first pixel and these hops shows the pixels that the coder has left behind, whatever the tables
hold and whatever buffer the decoder writes to. -/
theorem decode_replays_encode {f : Forecast} {width height srcStride dstStride : Nat}
    {src dst : Bytes} (hratio : RatioCovered f.ratio) (hsized : f.ladders.Sized)
    (hsrc : Accepted ⟨width, height, srcStride⟩ src)
    (hdst : Accepted ⟨width, height, dstStride⟩ dst) :
    ∃ s seed, f.encode ⟨width, height, srcStride⟩ src ⟨width, height, dstStride⟩ dst = .ok s ∧
      s.hops.size = width * height ∧ s.hops[0]? = some .null ∧ fetch src 0 = .ok seed ∧
      ∀ (stride : Nat) (pixels : Bytes), Accepted ⟨width, height, stride⟩ pixels →
        ∃ d trace, f.decode seed s.hops ⟨width, height, stride⟩ pixels = .ok d ∧
          f.decodeTraced seed s.hops ⟨width, height, stride⟩ pixels = .ok (d, trace) ∧
          (⟨width, height, stride⟩ : Window).gather d.pixels 0 =
            (⟨width, height, dstStride⟩ : Window).gather s.pixels 0 := by
  let source : Window := ⟨width, height, srcStride⟩
  have hspaced : Accepted (source.respaced dstStride) dst := hdst
  obtain ⟨s, hencode, hhops, hshown⟩ := encode_coded hspaced hratio hsized hsrc
  have hcorner := f.plain.getElem?_scan_zero width (seedOf source src) (f.choiceOf source src)
    hsrc.area_pos
  refine ⟨s, _, hencode, ?_, ?_, fetch_seed hsrc, ?_⟩
  · rw [hhops]
    exact size_hops_coded f source src
  · rw [hhops, Scan.hops, Array.getElem?_map]
    exact congrArg (Option.map ScannedPixel.hop) hcorner
  · -- Every decoder repeats the plain scan, whose values the coder has left behind.
    intro stride pixels (hpixels : Accepted (source.respaced stride) pixels)
    obtain ⟨trace, htraced⟩ := decodeTraced_coded hpixels hratio hsized
    rw [hhops]
    exact ⟨_, trace, decode_coded hpixels hratio hsized, htraced,
      (gather_replayed hpixels).trans hshown.symm⟩

def evenForecast : Forecast :=
  ⟨.ofTables (.ofLadders fun _ => Ladder.even), 25, .weighted⟩

theorem decode_replays_encode_twoRows :
    Accepted ⟨2, 2, 3⟩ #[80, 96, 0, 70, 200] ∧ Accepted ⟨2, 2, 2⟩ #[1, 2, 3, 4] ∧
      Accepted ⟨2, 2, 4⟩ #[9, 9, 9, 9, 9, 9] ∧
      ∃ s d, evenForecast.encode ⟨2, 2, 3⟩ #[80, 96, 0, 70, 200] ⟨2, 2, 2⟩ #[1, 2, 3, 4] = .ok s ∧
        evenForecast.decode 80 s.hops ⟨2, 2, 4⟩ #[9, 9, 9, 9, 9, 9] = .ok d ∧
        (⟨2, 2, 4⟩ : Window).gather d.pixels 0 = (⟨2, 2, 2⟩ : Window).gather s.pixels 0 := by
  have hsrc : Accepted ⟨2, 2, 3⟩ #[80, 96, 0, 70, 200] := ⟨rfl, by decide⟩
  have hdst : Accepted ⟨2, 2, 2⟩ #[1, 2, 3, 4] := ⟨rfl, by decide⟩
  have hbuf : Accepted ⟨2, 2, 4⟩ #[9, 9, 9, 9, 9, 9] := ⟨rfl, by decide⟩
  have hratio : RatioCovered evenForecast.ratio := ⟨by decide, by decide⟩
  obtain ⟨s, seed, hencode, -, -, hseed, hdecodes⟩ :=
    decode_replays_encode hratio (Ladders.sized_ofTables _) hsrc hdst
  cases hseed
  obtain ⟨d, -, hdecode, -, hsame⟩ := hdecodes 4 _ hbuf
  exact ⟨hsrc, hdst, hbuf, s, d, hencode, hdecode, hsame⟩

end Forecast

end Machine

end HopCodec
