/-
The raster scan on the machine.  The pixels scanned so far stand in the buffer when the next one is
predicted from them, the steps stay within the tables, and so the scan is the plain one.
-/
import HopCodec.Proofs.Machine.Ladders
import HopCodec.Proofs.Plane
import HopCodec.Proofs.Prediction.SecondGeneration

namespace HopCodec.Machine

namespace Forecast

/-- A forecast looks up what a predictor computes. -/
structure Realizes (f : Forecast) (p : Predictor) : Prop where
  reads : f.ladders.Reads p.tables
  ratio : f.ratio = p.ratio
  prediction : f.prediction = p.prediction

theorem realizes_ofPredictor (p : Predictor) : (ofPredictor p).Realizes p :=
  ⟨Ladders.reads_ofTables p.tables, rfl, rfl⟩

/-- The pixels scanned so far stand at their places in a buffer. -/
def Shows (target : Window) (pixels : Bytes) (s : Scan) : Prop :=
  ∀ i, i < s.size → pixels.getD (target.place i) 0 = s.value i

theorem blend_average (a b : UInt8) :
    blend .average a.toNat b.toNat = .ok (UInt8.ofNat ((a.toNat + b.toNat) / 2)) := by
  have ha := UInt8.toNat_lt a
  have hb := UInt8.toNat_lt b
  have hhalf : (0x200 : Nat) < halfSize := by decide
  rw [blend, fit_eq (by omega), ok_bind, shiftRight_eq (by decide), ok_bind, Nat.shiftRight_one]
  rfl

theorem blend_weighted (a b : UInt8) :
    blend .weighted a.toNat b.toNat =
      .ok (UInt8.ofNat ((4 * a.toNat + 3 * b.toNat) / 7)) := by
  have ha := UInt8.toNat_lt a
  have hb := UInt8.toNat_lt b
  have hhalf : (0x800 : Nat) < halfSize := by decide
  rw [blend, fit_eq (by omega), ok_bind, fit_eq (by omega), ok_bind, fit_eq (by omega), ok_bind,
    div_eq (by decide), ok_bind]
  rfl

section Predict

variable {target : Window} {pixels : Bytes} {s : Scan} {x y : Nat}

variable (hshows : Shows target pixels s) (hstride : target.width ≤ target.stride)
  (hx : x < target.width) (hsize : s.size = y * target.width + x)
  (hroom : y * target.stride + x < pixels.size)

include hshows hstride hx hsize hroom

/-- The buffer shows any pixel before the next one. -/
theorem fetch_shown {i j : Nat} (hi : i < target.width)
    (hbefore : j * target.width + i < s.size) :
    fetch pixels (j * target.stride + i) = .ok (s.value (j * target.width + i)) := by
  have hvalue := hshows _ hbefore
  rw [target.place_index hi, Window.index] at hvalue
  have hlt : j * target.stride + i < pixels.size := by
    rcases Nat.lt_trichotomy j y with habove | rfl | hbelow
    · have hrow : (j + 1) * target.stride ≤ y * target.stride :=
        Nat.mul_le_mul_right target.stride habove
      rw [Nat.succ_mul] at hrow
      omega
    · omega
    · have hrow : (y + 1) * target.width ≤ j * target.width :=
        Nat.mul_le_mul_right target.width hbelow
      rw [Nat.succ_mul] at hrow
      omega
  rw [fetch_eq_getD hlt 0, hvalue]

theorem fetch_left (hpos : 0 < x) :
    fetch pixels (y * target.stride + x - 1) = .ok (s.value (s.size - 1)) := by
  have hplace : y * target.stride + x - 1 = y * target.stride + (x - 1) := by omega
  have hindex : s.size - 1 = y * target.width + (x - 1) := by omega
  rw [hplace, hindex]
  exact fetch_shown hshows hstride hx hsize hroom (by omega) (by omega)

/-- The row above shows the pixel above the next one, and those on the right of that. -/
theorem fetch_above (hpos : 0 < y) {k : Nat} (hk : x + k < target.width) :
    fetch pixels (y * target.stride + x - target.stride + k) =
      .ok (s.value (s.size - target.width + k)) := by
  obtain ⟨y, rfl⟩ := Nat.exists_eq_succ_of_ne_zero (Nat.ne_of_gt hpos)
  rw [Nat.succ_mul] at hsize
  have hplace : (y + 1) * target.stride + x - target.stride + k =
      y * target.stride + (x + k) := by
    rw [Nat.succ_mul]
    omega
  have hindex : s.size - target.width + k = y * target.width + (x + k) := by omega
  rw [hplace, hindex]
  exact fetch_shown hshows hstride hx (by rw [hsize, Nat.succ_mul]) hroom hk (by omega)

/-- A pixel is predicted from the pixels before it. -/
theorem predict_eq {f : Forecast} {p : Predictor} (hf : f.Realizes p) (hpos : 0 < s.size)
    (hword : pixels.size < wordSize) :
    f.predict pixels target.stride target.width x y = .ok (p.predict target.width s) := by
  have hcolumn : s.size % target.width = x := by
    rw [hsize, Nat.mul_add_mod', Nat.mod_eq_of_lt hx]
  have hline : s.size / target.width = y := by
    rw [hsize, Nat.mul_comm, Nat.mul_add_div (Nat.zero_lt_of_lt hx), Nat.div_eq_of_lt hx,
      Nat.add_zero]
  have hleft := fetch_left hshows hstride hx hsize hroom
  have habove {k : Nat} := fetch_above (k := k) hshows hstride hx hsize hroom
  rw [predict, mul_eq (by omega), ok_bind, add_eq (by omega), ok_bind, Predictor.predict]
  simp only [hcolumn, hline]
  rcases Nat.eq_zero_or_pos y with rfl | hrow
  · rw [Nat.zero_mul, Nat.zero_add] at hsize
    rw [if_pos rfl, if_pos rfl, sub_eq (by omega), ok_bind, hleft (by omega)]
  · have hreach : target.stride ≤ y * target.stride + x :=
      Nat.le_trans (Nat.le_mul_of_pos_left _ hrow) (Nat.le_add_right _ _)
    have hup : fetch pixels (y * target.stride + x - target.stride) =
        .ok (s.value (s.size - target.width)) := habove (k := 0) hrow hx
    rw [if_neg (Nat.ne_of_gt hrow), if_neg (Nat.ne_of_gt hrow), sub_eq hreach, ok_bind, hup,
      ok_bind]
    by_cases hfirst : x = 0
    · rw [if_pos hfirst, if_pos hfirst]
      rfl
    · rw [if_neg hfirst, if_neg hfirst, sub_eq (by omega), ok_bind, hleft (by omega), ok_bind,
        sub_eq (by omega), ok_bind]
      by_cases hlast : x = target.width - 1
      · rw [if_pos hlast, if_pos hlast, blend_average]
      · rw [if_neg hlast, if_neg hlast, ok_bind, add_eq (by omega), ok_bind,
          habove hrow (by omega), ok_bind, hf.prediction]
        cases p.prediction with
        | average => rw [blend_average]
        | weighted => rw [blend_weighted]

end Predict

theorem place_lt {w : Window} {len k : Nat} (h : w.Fits len) (hk : k < w.area) :
    w.place k < len := by
  obtain ⟨-, hextent⟩ := h
  have hx := Window.mod_width_lt hk
  have hy := Window.div_width_lt hk
  have hrow : k / w.width * w.stride ≤ (w.height - 1) * w.stride :=
    Nat.mul_le_mul_right w.stride (by omega)
  rw [Window.place, Window.index]
  rw [Window.extent] at hextent
  omega

/-- A window that passes the checks is not empty and lies in the buffer. -/
theorem fits_of_check {w : Window} {len : Nat} (h : check w len = .ok ()) :
    0 < w.width ∧ 0 < w.height ∧ w.Fits len := by
  unfold check at h
  split at h
  · cases h
  · next hempty =>
      split at h
      · cases h
      · next hnarrow =>
          have hone : 1 ≤ w.height := by omega
          rw [sub_eq hone, ok_bind] at h
          obtain ⟨rows, hrows, h⟩ := bind_eq_ok_iff.mp h
          obtain ⟨extent, hextent, h⟩ := bind_eq_ok_iff.mp h
          obtain ⟨-, rfl⟩ := fit_eq_ok_iff.mp hrows
          obtain ⟨-, rfl⟩ := fit_eq_ok_iff.mp hextent
          split at h
          · cases h
          · next hlong => exact ⟨by omega, hone, Nat.not_lt.mp hnarrow, Nat.not_lt.mp hlong⟩

theorem check_eq {w : Window} {len : Nat} (hwidth : 0 < w.width) (hheight : 0 < w.height)
    (hfits : w.Fits len) (hlen : len < wordSize) : check w len = .ok () := by
  obtain ⟨hstride, hextent⟩ := hfits
  have hone : 1 ≤ w.height := hheight
  have hempty : ¬ (w.width = 0 ∨ w.height = 0) := by omega
  rw [Window.extent] at hextent
  rw [check, if_neg hempty, if_neg (Nat.not_lt.mpr hstride), sub_eq hone, ok_bind,
    mul_eq (by omega), ok_bind, add_eq (by omega), ok_bind, if_neg (Nat.not_lt.mpr hextent)]
  rfl

/-- The decoder once it has rebuilt the first `count` pixels. -/
def decodeTo (f : Forecast) (seed : UInt8) (hops : Array Hop) (target : Window) (pixels : Bytes)
    (count : Nat) : Run Scanning :=
  loop (fun i => f.scanPixel seed target.width target.stride (fun i _ _ => fetch hops i)
    (i % target.width) (i / target.width)) count ⟨pixels, .start, #[]⟩

section Scan

variable {f : Forecast} (p : Predictor) (seed : UInt8) (choice : HopChoice) (target : Window)
  (pixels : Bytes)

/-- The state of a scan after `k` pixels. -/
def scanned (k : Nat) : Scanning :=
  let s := p.scan target.width seed choice k
  ⟨target.scatterTo pixels 0 (p.scan target.width seed choice target.area).values k,
    (s.back?.map ScannedPixel.state).getD .start, s.hops⟩

/-- The last pixel of a scan is the one that its state is read from. -/
theorem states_scanned_succ (k : Nat) :
    (p.scan target.width seed choice (k + 1)).states =
      (p.scan target.width seed choice k).states.push
        (scanned p seed choice target pixels (k + 1)).state := by
  rw [scanned, Predictor.scan_succ, Predictor.scanNext]
  split <;> simp [Scan.states]

/-- Every pixel of a scan is put at its place. -/
theorem pixels_scanned_succ (k : Nat) :
    (scanned p seed choice target pixels (k + 1)).pixels =
      (scanned p seed choice target pixels k).pixels.setIfInBounds (target.place k)
        ((p.scan target.width seed choice target.area).values.getD k 0) := by
  rw [scanned, scanned, Window.scatterTo_succ, Nat.zero_add]

variable {target pixels}

theorem shows_scanned (hfits : target.Fits pixels.size) {k : Nat} (hk : k ≤ target.area) :
    Shows target (scanned p seed choice target pixels k).pixels
      (p.scan target.width seed choice k) := by
  intro i hi
  rw [Predictor.size_scan] at hi
  have hroom : 0 + target.place i < pixels.size := by
    rw [Nat.zero_add]
    exact place_lt hfits (by omega)
  have hvalue := Window.getD_scatterTo_place hfits.1
    (p.scan target.width seed choice target.area).values hi hk hroom
  rw [Nat.zero_add] at hvalue
  have hpixel : (p.scan target.width seed choice target.area)[i]? =
      (p.scan target.width seed choice k)[i]? := by
    rw [Predictor.getElem?_scan p target.width seed choice (Nat.lt_of_lt_of_le hi hk),
      Predictor.getElem?_scan p target.width seed choice hi]
  rw [scanned, hvalue, Scan.value, ← hpixel]
  simp [Scan.values, Array.getD_eq_getD_getElem?]

/-- A scan stores the value of each pixel at its place. -/
theorem fetch_scanned (hfits : target.Fits pixels.size) {i : Nat} (hi : i < target.area) :
    fetch (scanned p seed choice target pixels target.area).pixels (target.place i) =
      .ok ((p.scan target.width seed choice target.area).value i) := by
  have hplace : target.place i <
      (scanned p seed choice target pixels target.area).pixels.size := by
    rw [scanned, Window.size_scatterTo]
    exact place_lt hfits hi
  have hcount : i < (p.scan target.width seed choice target.area).size := by
    rw [Predictor.size_scan]
    exact hi
  rw [fetch_eq_getD hplace 0]
  exact congrArg Except.ok (shows_scanned p seed choice hfits (Nat.le_refl _) i hcount)

theorem stateBefore_eq {k : Nat} :
    Predictor.stateBefore target.width (p.scan target.width seed choice k) =
      if k % target.width = 0 then .start
      else (scanned p seed choice target pixels k).state := by
  rw [Predictor.stateBefore, Predictor.size_scan]
  rfl

/-- The tables cover the step that each pixel is looked up with. -/
theorem stepCovered_scan (k : Nat) :
    StepCovered (Predictor.stateBefore target.width (p.scan target.width seed choice k)).step := by
  obtain ⟨hfloor, hceiling⟩ := p.inRange_stateBefore_scan target.width seed choice k
  exact ⟨Nat.le_trans (by decide) hfloor, Nat.le_trans hceiling (by decide)⟩

section Run

variable (hf : f.Realizes p) (hfits : target.Fits pixels.size) (hword : pixels.size < wordSize)

include hf hfits hword

/-- The next pixel is predicted as in the plain scan. -/
theorem predict_scanned {k : Nat} (hpos : 0 < k) (hk : k < target.area) :
    f.predict (scanned p seed choice target pixels k).pixels target.stride target.width
        (k % target.width) (k / target.width) =
      .ok (p.predict target.width (p.scan target.width seed choice k)) := by
  have hcount : (p.scan target.width seed choice k).size = k :=
    Predictor.size_scan p target.width seed choice k
  have hindex : k / target.width * target.width + k % target.width = k :=
    Nat.div_add_mod' k target.width
  have hplace := place_lt hfits hk
  have hsize : (scanned p seed choice target pixels k).pixels.size = pixels.size :=
    Window.size_scatterTo _ _ _ _ _
  rw [← hsize] at hplace hword
  exact predict_eq (shows_scanned p seed choice hfits (Nat.le_of_lt hk)) hfits.1
    (Window.mod_width_lt hk) (hcount.trans hindex.symm) hplace hf (by rw [hcount]; exact hpos)
    hword

variable (hratio : RatioCovered p.ratio) (harea : target.area < wordSize)

include hratio harea

section Source

variable {choice} (source : HopSource)
  (hsource : ∀ i, 0 < i → i < target.area → ∀ step, StepCovered step →
    ∀ predicted, source i step predicted = .ok (choice i step predicted))

include hsource

omit hf hword hratio harea hsource in
/-- The first pixel of a scan is the seed, stored in the corner. -/
theorem scanPixel_scanned_zero (hpos : 0 < target.area) :
    f.scanPixel seed target.width target.stride source 0 0
        (scanned p seed choice target pixels 0) =
      .ok (scanned p seed choice target pixels 1) := by
  have hcorner : target.place 0 = 0 := by simp [Window.place, Window.index]
  have hroom : 0 < (scanned p seed choice target pixels 0).pixels.size := by
    rw [scanned, Window.size_scatterTo]
    exact Nat.zero_lt_of_lt (place_lt hfits hpos)
  have hpixels := pixels_scanned_succ p seed choice target pixels 0
  rw [p.getD_values_scan_zero target.width seed choice hpos, hcorner] at hpixels
  rw [scanPixel, if_pos ⟨rfl, rfl⟩, store_eq hroom, ok_bind, ← hpixels]
  simp [scanned, Predictor.scan, Predictor.scanNext, Scan.hops, Predictor.stateBefore]

/-- Any later pixel takes the hop that is chosen for it, and the value that the hop leads to. -/
theorem scanPixel_scanned_pos {k : Nat} (hpos : 0 < k) (hk : k < target.area) :
    f.scanPixel seed target.width target.stride source (k % target.width) (k / target.width)
        (scanned p seed choice target pixels k) =
      .ok (scanned p seed choice target pixels (k + 1)) := by
  let s := p.scan target.width seed choice k
  let before := Predictor.stateBefore target.width s
  let predicted := p.predict target.width s
  let hop := choice k before.step predicted
  have hplace := place_lt hfits hk
  have hplace' : k / target.width * target.stride + k % target.width = target.place k := rfl
  have hindex : k / target.width * target.width + k % target.width = k :=
    Nat.div_add_mod' k target.width
  have hsize : (scanned p seed choice target pixels k).pixels.size = pixels.size :=
    Window.size_scatterTo _ _ _ _ _
  have hcorner : ¬ (k % target.width = 0 ∧ k / target.width = 0) := by
    rintro ⟨hcolumn, hrow⟩
    rw [hcolumn, hrow, Nat.zero_mul] at hindex
    omega
  have hbefore : (if k % target.width = 0 then .start
      else (scanned p seed choice target pixels k).state) = before :=
    (stateBefore_eq p seed choice).symm
  have hpredicted : f.predict (scanned p seed choice target pixels k).pixels target.stride
      target.width (k % target.width) (k / target.width) = .ok predicted :=
    predict_scanned p seed choice hf hfits hword hpos hk
  have hstep : StepCovered before.step := stepCovered_scan p seed choice k
  have hpixels := pixels_scanned_succ p seed choice target pixels k
  have hvalue : (p.scan target.width seed choice target.area).values.getD k 0 =
      p.tables.ladder p.ratio before.step predicted hop :=
    p.getD_values_scan_pos target.width seed choice hpos hk
  rw [hvalue] at hpixels
  have hnext : p.scan target.width seed choice (k + 1) =
      s.push ⟨p.tables.ladder p.ratio before.step predicted hop, hop, before.after hop⟩ := by
    rw [Predictor.scan_succ, Predictor.scanNext, Predictor.size_scan, if_neg (Nat.ne_of_gt hpos)]
  rw [scanPixel, if_neg hcorner]
  simp only [hbefore, hpredicted, ok_bind]
  rw [mul_eq (by omega), ok_bind, add_eq (by omega), ok_bind, hindex,
    hsource k hpos hk _ hstep, ok_bind, hf.ratio, hf.reads.value hratio hstep, ok_bind,
    mul_eq (by omega), ok_bind, add_eq (by omega), ok_bind, hplace',
    store_eq (by rw [hsize]; exact hplace), ok_bind, ← hpixels, scanned, hnext]
  simp [scanned, Scan.hops, hop, s]

/-- Scanning a pixel leads from the state before it to the state behind it. -/
theorem scanPixel_scanned {k : Nat} (hk : k < target.area) :
    f.scanPixel seed target.width target.stride source (k % target.width) (k / target.width)
        (scanned p seed choice target pixels k) =
      .ok (scanned p seed choice target pixels (k + 1)) := by
  rcases Nat.eq_zero_or_pos k with rfl | hpos
  · rw [Nat.zero_mod, Nat.zero_div]
    exact scanPixel_scanned_zero p seed hfits source hk
  · exact scanPixel_scanned_pos p seed hf hfits hword hratio harea source hsource hpos hk

/-- A scan that has come to the `k`-th pixel has gone through the states of the plain one. -/
theorem loop_scanned {k : Nat} (hk : k ≤ target.area) :
    loop (fun i => f.scanPixel seed target.width target.stride source (i % target.width)
        (i / target.width)) k ⟨pixels, .start, #[]⟩ =
      .ok (scanned p seed choice target pixels k) := by
  have hstart : scanned p seed choice target pixels 0 = ⟨pixels, .start, #[]⟩ := by
    simp [scanned, Predictor.scan, Window.scatterTo, Scan.hops]
  rw [← hstart]
  exact loop_eq (f := scanned p seed choice target pixels) fun i hi =>
    scanPixel_scanned p seed hf hfits hword hratio harea source hsource
      (Nat.lt_of_lt_of_le hi hk)

/-- A scan writes the values of the plain scan into its window and takes the same hops. -/
theorem scan_eq :
    f.scan seed target pixels source =
      .ok (scanned p seed choice target pixels target.area) := by
  rw [scan,
    loop_grid fun x y => f.scanPixel seed target.width target.stride source x y,
    Nat.mul_comm]
  exact loop_scanned p seed hf hfits hword hratio harea source hsource (Nat.le_refl _)

end Source

/-- A decoder on its way has gone through the states of the plain scan. -/
theorem decodeTo_eq {hops : Array Hop} (hhops : hops.size = target.area) {k : Nat}
    (hk : k ≤ target.area) :
    f.decodeTo seed hops target pixels k =
      .ok (scanned p seed (Predictor.chooseFrom hops) target pixels k) :=
  loop_scanned p seed hf hfits hword hratio harea (fun i _ _ => fetch hops i)
    (fun i _ hi _ _ _ => fetch_eq_getD (by rw [hhops]; exact hi) Hop.null) hk

variable (hwidth : 0 < target.width) (hheight : 0 < target.height) {hops : Array Hop}
  (hhops : hops.size = target.area)

include hwidth hheight hhops

theorem decode_eq :
    f.decode seed hops target pixels =
      .ok (scanned p seed (Predictor.chooseFrom hops) target pixels target.area) := by
  have harea' : target.width * target.height < wordSize := harea
  have hhops' : ¬ hops.size ≠ target.width * target.height := not_not.mpr hhops
  rw [decode, check_eq hwidth hheight hfits hword, ok_bind, mul_eq harea', ok_bind, if_neg hhops']
  exact scan_eq p seed hf hfits hword hratio harea _ fun i _ hi _ _ _ =>
    fetch_eq_getD (by rw [hhops]; exact hi) Hop.null

/-- The decoder that notes its states goes through the same scan. -/
theorem decodeTraced_eq :
    f.decodeTraced seed hops target pixels =
      .ok (scanned p seed (Predictor.chooseFrom hops) target pixels target.area,
        (p.scan target.width seed (Predictor.chooseFrom hops) target.area).states) := by
  have harea' : target.width * target.height < wordSize := harea
  have hhops' : ¬ hops.size ≠ target.width * target.height := not_not.mpr hhops
  let choice := Predictor.chooseFrom hops
  let source : HopSource := fun i _ _ => fetch hops i
  let traced (k : Nat) : Scanning × Array Adaptation :=
    (scanned p seed choice target pixels k, (p.scan target.width seed choice k).states)
  have hstep : ∀ k, k < target.area →
      f.tracePixel seed target.width target.stride source (k % target.width) (k / target.width)
        (traced k) = .ok (traced (k + 1)) := by
    intro k hk
    have hpixel : f.scanPixel seed target.width target.stride source (k % target.width)
        (k / target.width) (traced k).1 = .ok (traced (k + 1)).1 :=
      scanPixel_scanned p seed hf hfits hword hratio harea source
        (fun i _ hi _ _ _ => fetch_eq_getD (by rw [hhops]; exact hi) Hop.null) hk
    rw [tracePixel, hpixel, ok_bind]
    simp only [traced, states_scanned_succ p seed choice target pixels k, pure_eq_ok]
  have hstart : traced 0 = (⟨pixels, .start, #[]⟩, #[]) := by
    simp [traced, scanned, Predictor.scan, Window.scatterTo, Scan.hops, Scan.states]
  rw [decodeTraced, check_eq hwidth hheight hfits hword, ok_bind, mul_eq harea', ok_bind,
    if_neg hhops',
    loop_grid fun x y => f.tracePixel seed target.width target.stride source x y, Nat.mul_comm,
    ← hstart]
  exact loop_eq (f := traced) hstep

end Run

theorem nearest_eq (hf : f.Realizes p) (hratio : RatioCovered p.ratio) {source : Window}
    {src : Bytes} (hfits : source.Fits src.size) (hword : src.size < wordSize) {i step : Nat}
    (hi : i < source.area) (hstep : StepCovered step) (predicted : UInt8) :
    f.nearest source src i step predicted =
      .ok (p.chooseNearest (source.gather src 0) i step predicted) := by
  have hpos : 0 < source.width := Nat.zero_lt_of_lt (Window.mod_width_lt hi)
  have hplace := place_lt hfits hi
  have hplace' : i / source.width * source.stride + i % source.width = source.place i := rfl
  have hpixel := source.getD_gather src 0 hi
  rw [Nat.zero_add] at hpixel
  rw [nearest, div_eq hpos, ok_bind, mul_eq (by omega), ok_bind, rem_eq hpos, ok_bind,
    add_eq (by omega), ok_bind, hplace', fetch_eq_getD hplace 0, ok_bind, hf.ratio,
    hf.reads.hop hratio hstep, Predictor.chooseNearest, hpixel]

/-- Coding a window of a buffer scans the pixels that it shows. -/
theorem encode_eq (hf : f.Realizes p) (hratio : RatioCovered p.ratio) {source : Window}
    {src : Bytes} (hwidth : 0 < target.width) (hheight : 0 < target.height)
    (hsource : source.Fits src.size) (hsize : source.width = target.width ∧
      source.height = target.height) (hsrc : src.size < wordSize)
    (hfits : target.Fits pixels.size) (hword : pixels.size < wordSize)
    (harea : target.area < allocationLimit) :
    f.encode source src target pixels =
      .ok (scanned p ((source.gather src 0).getD 0 0) (p.chooseNearest (source.gather src 0))
        target pixels target.area) := by
  have hlimit : allocationLimit < wordSize := by decide
  have harea' : target.width * target.height < allocationLimit := harea
  have hequal : source.area = target.area := by rw [Window.area, hsize.1, hsize.2, Window.area]
  have hpos : 0 < source.area := by
    rw [hequal]
    exact Nat.mul_pos hwidth hheight
  have hfirst : 0 < src.size := Nat.zero_lt_of_lt (place_lt hsource hpos)
  have hseed : (source.gather src 0).getD 0 0 = src.getD 0 0 := by
    simp [Window.gather, Array.getD_eq_getD_getElem?, hpos, Window.place, Window.index]
  have hreserve : reserve (target.width * target.height) = .ok () := if_pos harea'
  have hscan := scan_eq p (src.getD 0 0) hf hfits hword hratio (Nat.lt_trans harea hlimit)
    (f.nearest source src) fun i _ hi _ hstep predicted =>
      nearest_eq p hf hratio hsource hsrc (by rw [hequal]; exact hi) hstep predicted
  rw [encode, check_eq (by omega) (by omega) hsource hsrc, ok_bind,
    check_eq hwidth hheight hfits hword, ok_bind, fetch_eq_getD hfirst 0, ok_bind,
    mul_eq (by omega), ok_bind, hreserve, lift_ok, ok_bind, hscan, hseed]

end Scan

end Forecast

end HopCodec.Machine
