/-
Binary images with a header on the machine.  A place within the data and the bytes from it on are
two views of one reading, so every move of the machine is a step of the plain reader; as each move
passes a byte, there are enough of them, and no place is beyond the data.
-/
import HopCodec.Machine.Pnm
import HopCodec.Proofs.Image.Pnm
import HopCodec.Proofs.Machine.Rgb

namespace HopCodec

namespace Machine.Pnm

open HopCodec.Pnm (isSpace kindOf)

variable {data : Bytes} {place moves : Nat}

/-- The bytes from a place on. -/
def behind (data : Bytes) (place : Nat) : List UInt8 :=
  data.toList.drop place

theorem length_behind (data : Bytes) (place : Nat) :
    (behind data place).length = data.size - place := by
  rw [behind, List.length_drop, Array.length_toList]

theorem behind_of_lt (h : place < data.size) :
    behind data place = data[place] :: behind data (place + 1) := by
  rw [behind, List.drop_eq_getElem_cons (by simpa using h), Array.getElem_toList]
  rfl

theorem behind_of_le (h : data.size ≤ place) : behind data place = [] :=
  List.drop_eq_nil_of_le (by simpa using h)

/-- The longest run of items with a property, by its length. -/
theorem take_drop_takeWhile {α : Type} (p : α → Bool) (items : List α) :
    items.take (items.takeWhile p).length = items.takeWhile p ∧
      items.drop (items.takeWhile p).length = items.dropWhile p := by
  have htake : (items.takeWhile p ++ items.dropWhile p).take (items.takeWhile p).length =
      items.takeWhile p := List.take_left
  have hdrop : (items.takeWhile p ++ items.dropWhile p).drop (items.takeWhile p).length =
      items.dropWhile p := List.drop_left
  rw [List.takeWhile_append_dropWhile] at htake hdrop
  exact ⟨htake, hdrop⟩

def stopOf (p : UInt8 → Bool) (data : Bytes) (place : Nat) : Nat :=
  place + ((behind data place).takeWhile p).length

theorem stopOf_of_pos {p : UInt8 → Bool} (h : place < data.size) (hp : p data[place] = true) :
    stopOf p data place = stopOf p data (place + 1) := by
  rw [stopOf, stopOf, behind_of_lt h, List.takeWhile_cons_of_pos hp, List.length_cons]
  omega

theorem stopOf_of_neg {p : UInt8 → Bool} (h : place < data.size) (hp : p data[place] = false) :
    stopOf p data place = place := by
  rw [stopOf, behind_of_lt h, List.takeWhile_cons_of_neg (by simp [hp])]
  rfl

theorem stopOf_le (p : UInt8 → Bool) (h : place ≤ data.size) : stopOf p data place ≤ data.size := by
  have hlength := (List.takeWhile_sublist p (l := behind data place)).length_le
  rw [length_behind] at hlength
  rw [stopOf]
  omega

/-- A scan passes over the longest run of bytes with the property. -/
theorem behind_stopOf (p : UInt8 → Bool) :
    behind data (stopOf p data place) = (behind data place).dropWhile p := by
  rw [stopOf, behind, ← List.drop_drop]
  exact (take_drop_takeWhile p (behind data place)).2

theorem toList_extract_stopOf (p : UInt8 → Bool) :
    (data.extract place (stopOf p data place)).toList = (behind data place).takeWhile p := by
  rw [Array.toList_extract, List.extract_eq_take_drop, stopOf, Nat.add_sub_cancel_left]
  exact (take_drop_takeWhile p (behind data place)).1

theorem scan_eq (p : UInt8 → Bool) (hdata : data.size < wordSize) (hplace : place ≤ data.size)
    (hmoves : data.size - place < moves) : scan p data moves place = .ok (stopOf p data place) := by
  induction moves generalizing place with
  | zero => omega
  | succ moves ih =>
      rw [scan]
      by_cases hlt : place < data.size
      · rw [if_pos hlt, fetch_eq hlt, ok_bind]
        by_cases hp : p data[place] = true
        · rw [if_pos hp, add_eq (by omega), ok_bind, ih hlt (by omega), stopOf_of_pos hlt hp]
        · rw [if_neg hp, stopOf_of_neg hlt (by simpa using hp)]
          rfl
      · rw [if_neg hlt, stopOf, behind_of_le (Nat.not_lt.mp hlt)]
        rfl

/-- Blanks are skipped from one place to another as they are in the bytes. -/
theorem exists_skipBlank (hdata : data.size < wordSize) (hplace : place ≤ data.size)
    (hmoves : data.size - place < moves) :
    ∃ stop, skipBlank data moves place = .ok stop ∧ place ≤ stop ∧ stop ≤ data.size ∧
      HopCodec.Pnm.skipBlank false (behind data place) = behind data stop := by
  induction moves generalizing place with
  | zero => omega
  | succ moves ih =>
      by_cases hlt : place < data.size
      · rw [skipBlank, if_pos hlt, fetch_eq hlt, ok_bind, behind_of_lt hlt]
        by_cases hsign : data[place] = 0x23
        · let line := stopOf (· ≠ 0x0A) data place
          have hpass : line = stopOf (· ≠ 0x0A) data (place + 1) :=
            stopOf_of_pos hlt (by rw [hsign]; decide)
          have hbegin : place + 1 ≤ line := hpass ▸ Nat.le_add_right _ _
          obtain ⟨stop, hskip, hle, hstop, hbehind⟩ := ih (stopOf_le (· ≠ 0x0A) hplace)
            (show data.size - line < moves by omega)
          refine ⟨stop, ?_, by omega, hstop, ?_⟩
          · rw [if_pos hsign, scan_eq _ hdata hplace (by omega), ok_bind, hskip]
          · rw [HopCodec.Pnm.skipBlank, if_neg (by decide), if_pos hsign,
              HopCodec.Pnm.skipBlank_true, ← behind_stopOf, ← hpass, hbehind]
        · by_cases hspace : isSpace data[place] = true
          · obtain ⟨stop, hskip, hle, hstop, hbehind⟩ := ih (show place + 1 ≤ data.size from hlt)
              (by omega)
            refine ⟨stop, ?_, by omega, hstop, ?_⟩
            · rw [if_neg hsign, if_pos hspace, add_eq (by omega), ok_bind, hskip]
            · rw [HopCodec.Pnm.skipBlank, if_neg (by decide), if_neg hsign, if_pos hspace, hbehind]
          · refine ⟨place, ?_, Nat.le_refl _, hplace, ?_⟩
            · rw [if_neg hsign, if_neg hspace]
              rfl
            · rw [HopCodec.Pnm.skipBlank, if_neg (by decide), if_neg hsign, if_neg hspace,
                behind_of_lt hlt]
      · refine ⟨place, ?_, Nat.le_refl _, hplace, ?_⟩
        · rw [skipBlank, if_neg hlt]
          rfl
        · rw [behind_of_le (Nat.not_lt.mp hlt)]
          rfl

/-- A machine program follows a plain one: both are refused alike, or their results correspond. -/
inductive Follows {α β : Type} (R : α → β → Prop) : Run α → Except Fault β → Prop
  | ok {a : α} {b : β} (h : R a b) : Follows R (.ok a) (.ok b)
  | refused (fault : Fault) : Follows R (refuse fault) (.error fault)

namespace Follows

variable {α β γ δ : Type} {R : α → β → Prop} {S : γ → δ → Prop} {m : Run α} {x : Except Fault β}

theorem bind {f : α → Run γ} {g : β → Except Fault δ} (h : Follows R m x)
    (hstep : ∀ a b, R a b → Follows S (f a) (g b)) : Follows S (m >>= f) (x >>= g) := by
  rcases h with hab | fault
  · exact hstep _ _ hab
  · exact .refused fault

theorem of_lift (x : Except Fault α) : Follows Eq (lift x) x := by
  cases x with
  | ok a => exact .ok rfl
  | error fault => exact .refused fault

theorem iff_eq_lift {view : β → α} :
    Follows (fun a b => a = view b) m x ↔ m = lift (x.map view) := by
  constructor
  · rintro (rfl | fault)
    · rfl
    · rfl
  · rintro rfl
    cases x with
    | ok b => exact .ok rfl
    | error fault => exact .refused fault

end Follows

/-- A place within the data stands for the bytes from there on. -/
def Stands {α β : Type} (data : Bytes) (view : α → β) (a : α × Nat) (b : β × List UInt8) : Prop :=
  a.2 ≤ data.size ∧ b = (view a.1, behind data a.2)

theorem token_follows (hdata : data.size < wordSize) (hplace : place ≤ data.size) :
    Follows (Stands data Array.toList) (token data place)
      (HopCodec.Pnm.token (behind data place)) := by
  obtain ⟨start, hskip, -, hstart, hbehind⟩ :=
    exists_skipBlank hdata hplace (show data.size - place < data.size + 1 by omega)
  let p (byte : UInt8) : Bool := !isSpace byte
  let stop := stopOf p data start
  have hstop : stop ≤ data.size := stopOf_le p hstart
  have hlength : stop = start + ((behind data start).takeWhile p).length := rfl
  rw [token, hskip, ok_bind,
    scan_eq p hdata hstart (show data.size - start < data.size + 1 by omega), ok_bind,
    HopCodec.Pnm.token, hbehind]
  change Follows _ (ite (start = stop) _ _) (ite (((behind data start).takeWhile p).isEmpty) _ _)
  by_cases hempty : start = stop
  · rw [if_pos hempty, if_pos (List.isEmpty_iff_length_eq_zero.mpr (by omega))]
    exact .refused _
  · rw [if_neg hempty, if_neg (by rw [List.isEmpty_iff_length_eq_zero]; omega),
      slice_eq (show start ≤ stopOf p data start by omega) hstop]
    refine .ok ⟨hstop, ?_⟩
    rw [toList_extract_stopOf, behind_stopOf]

theorem number_follows (hdata : data.size < wordSize) (hplace : place ≤ data.size) :
    Follows (Stands data id) (number data place) (HopCodec.Pnm.number (behind data place)) := by
  refine (token_follows hdata hplace).bind ?_
  rintro ⟨bytes, stop⟩ _ ⟨hstop, rfl⟩
  have hword : wordSize = 1 <<< 64 := rfl
  dsimp only
  rw [hword]
  cases Text.wholeNumber? (1 <<< 64) (bytes.toList.map fun byte => Char.ofNat byte.toNat) with
  | some n => exact .ok ⟨hstop, rfl⟩
  | none => exact .refused _

/-- Both readers find the same header. -/
theorem readHeader_follows (hdata : data.size < wordSize) :
    Follows (fun h h' => h.place ≤ data.size ∧
        h' = ⟨h.kind, h.width, h.height, behind data h.place⟩)
      (readHeader data) (HopCodec.Pnm.readHeader data.toList) := by
  refine (token_follows hdata (Nat.zero_le _)).bind ?_
  rintro ⟨magic, place⟩ _ ⟨hplace, rfl⟩
  refine (Follows.of_lift (kindOf magic.toList)).bind ?_
  rintro kind _ rfl
  refine (number_follows hdata hplace).bind ?_
  rintro ⟨width, place⟩ _ ⟨hplace, rfl⟩
  refine (number_follows hdata hplace).bind ?_
  rintro ⟨height, place⟩ _ ⟨hplace, rfl⟩
  refine (number_follows hdata hplace).bind ?_
  rintro ⟨maxval, place⟩ _ ⟨hplace, rfl⟩
  dsimp only [id]
  by_cases hmaxval : maxval ≠ 255
  · rw [if_pos hmaxval, if_pos hmaxval]
    exact .refused _
  by_cases hsides : width = 0 ∨ height = 0
  · rw [if_neg hmaxval, if_neg hmaxval, if_pos hsides, if_pos hsides]
    exact .refused _
  · rw [if_neg hmaxval, if_neg hmaxval, if_neg hsides, if_neg hsides]
    exact .ok ⟨hplace, rfl⟩

/-- A gray picture is made as the plain frame is. -/
theorem grayPicture_eq {raster : Bytes} {width height : Nat} (chroma : ChromaFormat)
    (hraster : raster.size = width * height) (hword : width * height < wordSize) :
    grayPicture raster width height chroma =
      lift ((HopCodec.Pnm.grayFrame raster width height chroma).map Picture.ofFrame) := by
  rw [grayPicture, Picture.new, chromaSize_eq, ok_bind, HopCodec.Pnm.grayFrame_eq chroma hraster]
  obtain hroom | hfull := Nat.lt_or_ge (width * height) allocationLimit
  · have hroom' := Nat.lt_of_le_of_lt (chroma.chromaArea_le width height) hroom
    simp only [Canvas.filled, Canvas.new_of_room hroom, Canvas.new_of_room hroom', ok_bind,
      reserve_of_lt hroom, pure_eq_ok, Array.size_replicate, ensure_eq hraster.symm]
    rfl
  · rw [Canvas.new_of_full hword hfull, reserve_of_le hfull]
    rfl

/-- The size of a raster, if it fits a word. -/
theorem checkedMul_bind (width height : Nat) {channels : Nat} (hpos : 0 < channels) :
    ((checkedMul width height).bind fun area => checkedMul area channels) =
      checkedMul (width * height) channels := by
  by_cases harea : width * height < wordSize
  · rw [checkedMul, if_pos harea, Option.bind_some]
  · have hle := Nat.le_mul_of_pos_right (width * height) hpos
    rw [checkedMul, checkedMul, if_neg harea, if_neg (by omega)]
    rfl

/-- The machine reads every byte string as the plain reader does. -/
theorem read_eq (hdata : data.size + 1 < wordSize) (chroma : ChromaFormat) :
    read data chroma = lift ((HopCodec.Pnm.read data chroma).map Picture.ofFrame) := by
  refine Follows.iff_eq_lift.mp ((readHeader_follows (by omega)).bind ?_)
  rintro ⟨kind, width, height, place⟩ _ ⟨hplace, rfl⟩
  have hpos : 0 < kind.channels := by cases kind <;> decide
  have hword : wordSize = 1 <<< 64 := rfl
  dsimp only at hplace ⊢
  rw [add_eq (by omega), ok_bind, checkedMul_bind width height hpos, length_behind]
  generalize hsize : width * height * kind.channels = size
  by_cases hfit : size < wordSize
  · rw [checkedMul, hsize, if_pos hfit, if_neg (by omega)]
    dsimp only
    by_cases hend : data.size < place + 1
    · rw [if_pos hend, if_pos (by omega)]
      exact .refused _
    rw [if_neg hend, sub_eq (by omega), ok_bind]
    by_cases hshort : data.size - (place + 1) < size
    · rw [if_pos hshort, if_pos (by omega)]
      exact .refused _
    have hraster : (((behind data place).drop 1).take size).toArray =
        data.extract (place + 1) (place + 1 + size) := by
      apply Array.ext'
      rw [Array.toList_extract, List.extract_eq_take_drop, Nat.add_sub_cancel_left, behind,
        List.drop_drop]
    have hlength : (data.extract (place + 1) (place + 1 + size)).size = size := by
      rw [Array.size_extract]
      omega
    rw [if_neg hshort, if_neg (by omega), add_eq (by omega), ok_bind,
      slice_eq (by omega) (by omega), ok_bind, hraster]
    cases kind with
    | gray =>
        rw [PnmKind.channels, Nat.mul_one] at hsize
        exact Follows.iff_eq_lift.mpr (grayPicture_eq chroma (hlength.trans hsize.symm) (by omega))
    | colour => exact Follows.iff_eq_lift.mpr (Rgb.toPicture_eq chroma (hsize ▸ hfit))
  · rw [checkedMul, hsize, if_neg hfit, if_pos (by omega)]
    exact .refused _

/-- The machine writes gray images as the plain writer does. -/
theorem writeGray_eq (f : Frame) (hdata : f.planes.luma.data.size < wordSize) :
    writeGray (.ofFrame f) = .ok (HopCodec.Pnm.write f .gray) := by
  have hraster := Canvas.toPacked_eq f.planes.luma hdata
  simp only [writeGray, Picture.ofFrame, Channels.map, hraster, ok_bind]
  rfl

end Machine.Pnm

namespace Pnm

open Machine (Picture wordSize lift)

/-- Gray images are read for what they say.  However the header is spelt, the frame has the luma of
the raster and no colour, if there is room for it; what lies behind the raster does not matter, and
a raster that is cut short is missed.  What the writer makes of a frame, whatever its stride and
padding are, is read as a frame with its luma.  The machine reads every byte string alike, comes to
an end and never traps. -/
theorem gray_exact (chroma : ChromaFormat) :
    (∀ {width height : Nat} {header : List UInt8} {sep : UInt8}, GrayHeader width height header →
      0 < width → 0 < height → width * height < wordSize → isSpace sep →
        (∀ (raster : Bytes) (hraster : raster.size = width * height) (trailing : List UInt8),
          read (header ++ sep :: (raster.toList ++ trailing)).toArray chroma = do
            reserve (width * height)
            return .ofGray width height chroma raster hraster) ∧
        ∀ raster : List UInt8, raster.length < width * height →
          read (header ++ sep :: raster).toArray chroma = .error .truncated) ∧
    (∀ f : Frame, 0 < f.width → 0 < f.height → f.width * f.height < wordSize →
      read (write f .gray) chroma = do
        reserve (f.width * f.height)
        return .ofGray f.width f.height chroma f.planes.luma.toPacked
          (Plane.size_toPacked f.planes.luma)) ∧
    (∀ data : Bytes, data.size + 1 < wordSize →
      Machine.Pnm.read data chroma = lift ((read data chroma).map Picture.ofFrame) ∧
        ∀ trap, Machine.Pnm.read data chroma ≠ .error (.trap trap)) ∧
    ∀ f : Frame, f.planes.luma.data.size < wordSize →
      Machine.Pnm.writeGray (.ofFrame f) = .ok (write f .gray) := by
  refine ⟨fun h hwidth hheight hword hsep => ⟨fun raster hraster trailing => ?_,
    fun raster hraster => ?_⟩, fun f hwidth hheight hword => ?_, fun data hdata => ?_,
    Machine.Pnm.writeGray_eq⟩
  · exact read_raster chroma h hwidth hheight hword hsep hraster trailing
  · exact read_cut chroma h hwidth hheight hword hsep hraster
  · obtain ⟨header, sep, hheader, hsep, hwrite⟩ := write_gray f
    have hread := read_raster chroma hheader hwidth hheight hword hsep
      (Plane.size_toPacked f.planes.luma) []
    rwa [List.append_nil, ← hwrite] at hread
  · have hread := Machine.Pnm.read_eq hdata chroma
    refine ⟨hread, ?_⟩
    rw [hread]
    exact Machine.lift_ne_trap _

/-- A comment before the magic and one that looks like a size, a width with a zero before it, and a
raster that looks like a comment, with a byte behind it and without its last byte; and a strided
frame of these pixels. -/
theorem gray_exact_comments :
    let header := "# gray\nP5 #2 1\n\t02 1\n255\n".toUTF8.data
    let plane : Plane := .ofPacked 2 1 #[0x23, 0x0A] rfl
    let padded : Plane := ⟨2, 1, 3, #[0x23, 0x0A, 7], by decide, .inr (by decide)⟩
    let f : Frame := ⟨.yuv444, ⟨padded, plane, plane⟩, by decide, by decide⟩
    read (header ++ #[0x23, 0x0A, 7]) .yuv420 = .ok (.ofGray 2 1 .yuv420 #[0x23, 0x0A] rfl) ∧
      read (header ++ #[0x23]) .yuv420 = .error .truncated ∧
      read (write f .gray) .yuv420 = .ok (.ofGray 2 1 .yuv420 #[0x23, 0x0A] rfl) ∧
      Machine.Pnm.read (header ++ #[0x23]) .yuv420 = .error (.fault .truncated) := by
  intro header plane padded f
  have hbefore : Blank [0x23, 0x20, 0x67, 0x72, 0x61, 0x79, 0x0A] :=
    .comment (show (0x0A : UInt8) ∉ [0x20, 0x67, 0x72, 0x61, 0x79] by decide) .nil
  have hcomment : Gap [0x20, 0x23, 0x32, 0x20, 0x31, 0x0A, 0x09] :=
    .intro (by decide) (.comment (show (0x0A : UInt8) ∉ [0x32, 0x20, 0x31] by decide)
      (.space (by decide) .nil))
  have hheader : GrayHeader 2 1 _ := .intro hbefore hcomment
    (numeral_digit (show 2 < 10 by decide)).cons_zero (.single (show isSpace 0x20 = true by decide))
    (numeral_digit (show 1 < 10 by decide)) (.single (show isSpace 0x0A = true by decide))
  obtain ⟨hspelt, hwritten, hmachine, -⟩ := gray_exact .yuv420
  obtain ⟨hread, hcut⟩ := hspelt hheader (by decide) (by decide) (by decide)
    (show isSpace 0x0A = true by decide)
  have hread := hread #[0x23, 0x0A] rfl [7]
  have hcut := hcut [0x23] (by decide)
  refine ⟨hread, hcut, ?_, ?_⟩
  · have hpixels : f.planes.luma.toPacked = #[0x23, 0x0A] := by decide
    have hread := hwritten f (by decide) (by decide) (by decide)
    simp only [hpixels] at hread
    exact hread
  · rw [(hmachine _ (by decide)).1]
    exact congrArg (fun result => lift (Except.map Picture.ofFrame result)) hcut

end Pnm

end HopCodec
