/-
Binary gray images are read for what they say, however their header is spelt.  A header is a magic
and three numbers with blanks between them: white space and comments in any mixture, and digits with
any number of zeros before them.  One byte of white space ends the header, and what comes behind it
is the raster, whatever its bytes look like.
-/
import Mathlib.Data.Nat.Digits.Defs
import HopCodec.Image.Pnm
import HopCodec.Proofs.Frame.Assembly

namespace HopCodec

/-- A run of items that have a property ends where one does not have it. -/
theorem takeWhile_dropWhile_append {α : Type} {p : α → Bool} {items : List α}
    (hitems : ∀ a ∈ items, p a = true) (rest : List α) (hrest : ∀ a ∈ rest.head?, p a = false) :
    (items ++ rest).takeWhile p = items ∧ (items ++ rest).dropWhile p = rest := by
  have hstop : rest.takeWhile p = [] ∧ rest.dropWhile p = rest := by
    cases rest with
    | nil => exact ⟨rfl, rfl⟩
    | cons a rest => simp [List.takeWhile, List.dropWhile, hrest a rfl]
  rw [List.takeWhile_append_of_pos hitems, List.dropWhile_append_of_pos hitems, hstop.1, hstop.2,
    List.append_nil]
  exact ⟨rfl, rfl⟩

def Frame.ofGray (width height : Nat) (chroma : ChromaFormat) (raster : Bytes)
    (h : raster.size = width * height) : Frame where
  chroma := chroma
  planes :=
    let size := chroma.chromaSize width height
    let blank := Plane.uniform size.1 size.2 neutral
    ⟨.ofPacked width height raster h, blank, blank⟩
  chromaA_size := rfl
  chromaB_size := rfl

namespace Pnm

/-- Text that a header is read across: white space, and comments that run to the end of a line. -/
inductive Blank : List UInt8 → Prop
  | nil : Blank []
  | space {byte : UInt8} {rest : List UInt8} (hspace : isSpace byte) (hrest : Blank rest) :
      Blank (byte :: rest)
  | comment {text rest : List UInt8} (htext : 0x0A ∉ text) (hrest : Blank rest) :
      Blank (0x23 :: (text ++ 0x0A :: rest))

/-- Text that sets two words apart: a blank that begins with white space. -/
inductive Gap : List UInt8 → Prop
  | intro {byte : UInt8} {rest : List UInt8} (hspace : isSpace byte) (hrest : Blank rest) :
      Gap (byte :: rest)

theorem Gap.single {byte : UInt8} (hspace : isSpace byte) : Gap [byte] :=
  .intro hspace .nil

theorem Gap.blank {text : List UInt8} (h : Gap text) : Blank text := by
  obtain ⟨hspace, hrest⟩ := h
  exact .space hspace hrest

/-- Text behind which a word is over. -/
def Ends (text : List UInt8) : Prop :=
  ∀ byte ∈ text.head?, isSpace byte

theorem Gap.ends_append {gap : List UInt8} (h : Gap gap) (rest : List UInt8) :
    Ends (gap ++ rest) := by
  obtain ⟨hspace, -⟩ := h
  intro byte hbyte
  cases hbyte
  exact hspace

/-- Digits that say a number.  There may be zeros before it. -/
structure Numeral (n : Nat) (digits : List UInt8) : Prop where
  ne_nil : digits ≠ []
  digit : ∀ byte ∈ digits, 0x30 ≤ byte ∧ byte ≤ 0x39
  value : Nat.ofDigits 10 (digits.reverse.map fun byte => byte.toNat - 0x30) = n

/-- A header of a gray image, up to the white space before the raster. -/
inductive GrayHeader (width height : Nat) : List UInt8 → Prop
  | intro {before gap gap' gap'' digitsW digitsH : List UInt8} (hbefore : Blank before)
      (hgap : Gap gap) (hwidth : Numeral width digitsW) (hgap' : Gap gap')
      (hheight : Numeral height digitsH) (hgap'' : Gap gap'') :
      GrayHeader width height (before ++ [0x50, 0x35] ++ gap ++ digitsW ++ gap' ++ digitsH ++
        gap'' ++ [0x32, 0x35, 0x35])

/-- What lies behind a comment begins with the end of its line. -/
theorem skipBlank_true (rest : List UInt8) :
    skipBlank true rest = skipBlank false (rest.dropWhile fun byte => decide (byte ≠ 0x0A)) := by
  induction rest with
  | nil => rfl
  | cons byte rest ih =>
      by_cases hline : byte = 0x0A
      · rw [hline]
        rfl
      · have hbyte : decide (byte ≠ 0x0A) = true := decide_eq_true hline
        simp only [skipBlank, List.dropWhile_cons, hbyte, if_true, ih]

/-- A comment is over at the end of its line. -/
theorem skipBlank_comment {text : List UInt8} (htext : 0x0A ∉ text) (rest : List UInt8) :
    skipBlank true (text ++ 0x0A :: rest) = skipBlank false rest := by
  have hbytes : ∀ byte ∈ text, decide (byte ≠ 0x0A) = true := fun byte hbyte =>
    decide_eq_true fun heq => htext (heq ▸ hbyte)
  rw [skipBlank_true, (takeWhile_dropWhile_append hbytes (0x0A :: rest) (by simp)).2]
  rfl

/-- Blanks are skipped. -/
theorem skipBlank_append {text : List UInt8} (h : Blank text) (rest : List UInt8) :
    skipBlank false (text ++ rest) = skipBlank false rest := by
  induction h with
  | nil => rfl
  | @space byte text hspace _ ih =>
      have hbyte : byte ≠ 0x23 := by
        rintro rfl
        exact absurd hspace (by decide)
      rw [List.cons_append, skipBlank, if_neg (by decide), if_neg hbyte, if_pos hspace, ih]
  | @comment text text' htext _ ih =>
      rw [List.cons_append, List.append_assoc, List.cons_append, skipBlank, if_neg (by decide),
        if_pos rfl, skipBlank_comment htext, ih]

/-- A byte of a word: neither white space nor a sign that opens a comment. -/
def isWord (byte : UInt8) : Prop :=
  isSpace byte = false ∧ byte ≠ 0x23

instance (byte : UInt8) : Decidable (isWord byte) :=
  inferInstanceAs (Decidable (_ ∧ _))

/-- The word behind a blank is the next token. -/
theorem token_append {blank word rest : List UInt8} (hblank : Blank blank) (hne : word ≠ [])
    (hword : ∀ byte ∈ word, isWord byte) (hrest : Ends rest) :
    token (blank ++ (word ++ rest)) = .ok (word, rest) := by
  obtain ⟨first, more, rfl⟩ := List.exists_cons_of_ne_nil hne
  obtain ⟨hspace, hsign⟩ := hword first List.mem_cons_self
  have hskip : skipBlank false (blank ++ (first :: more ++ rest)) = first :: more ++ rest := by
    rw [skipBlank_append hblank, List.cons_append, skipBlank,
      if_neg (by decide), if_neg hsign, if_neg (by rw [hspace]; decide)]
  have hbytes : ∀ byte ∈ first :: more, (!isSpace byte) = true := fun byte hbyte => by
    simp [(hword byte hbyte).1]
  obtain ⟨htake, hdrop⟩ := takeWhile_dropWhile_append hbytes rest fun byte hbyte => by
    simp [hrest byte hbyte]
  rw [token, hskip, htake, hdrop]
  rfl

section Numeral

variable {n : Nat} {digits : List UInt8}

/-- The byte of a digit. -/
theorem digit_ofNat {d : Nat} (hd : d < 10) :
    (0x30 ≤ UInt8.ofNat (0x30 + d) ∧ UInt8.ofNat (0x30 + d) ≤ 0x39) ∧
      (UInt8.ofNat (0x30 + d)).toNat - 0x30 = d ∧
      String.utf8EncodeChar (Nat.digitChar d) = [UInt8.ofNat (0x30 + d)] := by
  have hall : ∀ d < 10, (0x30 ≤ UInt8.ofNat (0x30 + d) ∧ UInt8.ofNat (0x30 + d) ≤ 0x39) ∧
      (UInt8.ofNat (0x30 + d)).toNat - 0x30 = d ∧
      String.utf8EncodeChar (Nat.digitChar d) = [UInt8.ofNat (0x30 + d)] := by
    decide
  exact hall d hd

theorem numeral_digit {d : Nat} (hd : d < 10) : Numeral d [UInt8.ofNat (0x30 + d)] := by
  obtain ⟨hdigit, hvalue, -⟩ := digit_ofNat hd
  refine ⟨by simp, List.forall_mem_singleton.mpr hdigit, ?_⟩
  rw [List.reverse_singleton, List.map_singleton, hvalue, Nat.ofDigits_singleton]

/-- A digit more at the end of a numeral. -/
theorem Numeral.append_digit (h : Numeral n digits) {d : Nat} (hd : d < 10) :
    Numeral (10 * n + d) (digits ++ [UInt8.ofNat (0x30 + d)]) := by
  obtain ⟨hdigit, hvalue, -⟩ := digit_ofNat hd
  refine ⟨by simp, List.forall_mem_append.mpr ⟨h.digit, List.forall_mem_singleton.mpr hdigit⟩, ?_⟩
  rw [List.reverse_append, List.reverse_singleton, List.singleton_append, List.map_cons, hvalue,
    Nat.ofDigits_cons, h.value, Nat.add_comm]

/-- A zero more at the beginning of a numeral. -/
theorem Numeral.cons_zero (h : Numeral n digits) : Numeral n (0x30 :: digits) := by
  refine ⟨by simp, List.forall_mem_cons.mpr ⟨by decide, h.digit⟩, ?_⟩
  rw [List.reverse_cons, List.map_append, Nat.ofDigits_append, h.value]
  simp

/-- The digit of a byte as a character. -/
theorem digit_char {byte : UInt8} (h : 0x30 ≤ byte ∧ byte ≤ 0x39) :
    Text.isDigit (Char.ofNat byte.toNat) = true ∧
      (Char.ofNat byte.toNat).toNat - '0'.toNat = byte.toNat - 0x30 ∧ isWord byte := by
  have hall : ∀ k < 10, Text.isDigit (Char.ofNat (0x30 + k)) = true ∧
      (Char.ofNat (0x30 + k)).toNat - '0'.toNat = k ∧ isSpace (UInt8.ofNat (0x30 + k)) = false ∧
        UInt8.ofNat (0x30 + k) ≠ 0x23 := by
    decide
  have hlow : 0x30 ≤ byte.toNat := h.1
  have hhigh : byte.toNat ≤ 0x39 := h.2
  obtain ⟨k, hk⟩ := Nat.exists_eq_add_of_le hlow
  have hbyte : UInt8.ofNat (0x30 + k) = byte := by rw [← hk, UInt8.ofNat_toNat]
  obtain ⟨hdigit, hvalue, hspace, hsign⟩ := hall k (by omega)
  rw [hbyte] at hspace hsign
  rw [hk]
  exact ⟨hdigit, hvalue.trans (Nat.add_sub_cancel_left ..).symm, hspace, hsign⟩

/-- The value of a row of digits. -/
theorem digitsValue_eq (hdigit : ∀ byte ∈ digits, 0x30 ≤ byte ∧ byte ≤ 0x39) :
    Text.digitsValue (digits.map fun byte => Char.ofNat byte.toNat) =
      Nat.ofDigits 10 (digits.reverse.map fun byte => byte.toNat - 0x30) := by
  induction digits using List.reverseRecOn with
  | nil => rfl
  | append_singleton before byte ih =>
      have hlast := (digit_char (hdigit byte (by simp))).2.1
      have hbefore := ih fun b hb => hdigit b (List.mem_append_left _ hb)
      rw [Text.digitsValue] at hbefore ⊢
      rw [List.map_append, List.foldl_append, hbefore, List.reverse_append]
      simp only [List.map_cons, List.map_nil, List.foldl_cons, List.foldl_nil, hlast,
        List.reverse_cons, List.reverse_nil, List.nil_append, List.cons_append, Nat.ofDigits_cons]
      rw [Nat.add_comm]

/-- A numeral is read as the number it says. -/
theorem wholeNumber?_numeral (h : Numeral n digits) {bound : Nat} (hbound : n < bound) :
    Text.wholeNumber? bound (digits.map fun byte => Char.ofNat byte.toNat) = some n := by
  let text := digits.map fun byte => Char.ofNat byte.toNat
  have hdigits : ∀ c ∈ text, Text.isDigit c = true := by
    intro c hc
    obtain ⟨byte, hbyte, rfl⟩ := List.mem_map.mp hc
    exact (digit_char (h.digit byte hbyte)).1
  obtain ⟨htake, hdrop⟩ := takeWhile_dropWhile_append hdigits [] (by simp)
  rw [List.append_nil] at htake hdrop
  have hne : text.isEmpty = false := by simp [text, h.ne_nil]
  have hleading : Text.leadingNumber? bound text = some (n, []) := by
    simp only [Text.leadingNumber?, htake, hdrop, hne]
    rw [digitsValue_eq h.digit, h.value]
    simp [hbound]
  have hplus : ∀ rest, text ≠ '+' :: rest := by
    intro rest htext
    have hplus := hdigits '+' (htext ▸ List.mem_cons_self)
    exact absurd hplus (by decide)
  rw [Text.wholeNumber?, hleading]
  exact hplus

/-- The numeral behind a blank is the next number. -/
theorem number_append {blank rest : List UInt8} (hblank : Blank blank) (h : Numeral n digits)
    (hword : n < 1 <<< 64) (hrest : Ends rest) :
    number (blank ++ (digits ++ rest)) = .ok (n, rest) := by
  have htoken := token_append hblank h.ne_nil (fun byte hbyte =>
    (digit_char (h.digit byte hbyte)).2.2) hrest
  simp only [number, htoken, wholeNumber?_numeral h hword, bind, Except.bind]
  rfl

/-- A gray header is read as the size it says. -/
theorem readHeader_append {width height : Nat} {header rest : List UInt8}
    (h : GrayHeader width height header) (hwidth : 0 < width) (hheight : 0 < height)
    (hword : width < 1 <<< 64 ∧ height < 1 <<< 64) (hrest : Ends rest) :
    readHeader (header ++ rest) = .ok ⟨.gray, width, height, rest⟩ := by
  obtain ⟨hbefore, hgap, hw, hgap', hh, hgap''⟩ := h
  have hmaxval : Numeral 255 [0x32, 0x35, 0x35] :=
    ((numeral_digit (show 2 < 10 by decide)).append_digit (show 5 < 10 by decide)).append_digit
      (show 5 < 10 by decide)
  have hmagic : ∀ byte ∈ [0x50, 0x35], isWord byte :=
    List.forall_mem_cons.mpr ⟨by decide, List.forall_mem_singleton.mpr (by decide)⟩
  have hkind (rest : List UInt8) (hends : Ends rest) :=
    token_append hbefore (by decide) hmagic hends
  have hw' (rest : List UInt8) (hends : Ends rest) :=
    number_append hgap.blank hw hword.1 hends
  have hh' (rest : List UInt8) (hends : Ends rest) :=
    number_append hgap'.blank hh hword.2 hends
  have hmaxval' := number_append hgap''.blank hmaxval (by decide) hrest
  simp only [List.append_assoc, readHeader, hkind _ (hgap.ends_append _),
    hw' _ (hgap'.ends_append _), hh' _ (hgap''.ends_append _), hmaxval', kindOf, bind,
    Except.bind]
  have hsides : ¬ (width = 0 ∨ height = 0) := by omega
  simp only [if_true, ne_eq, not_true_eq_false, if_false, hsides]
  rfl

end Numeral

/-- A gray frame is made if there is room for its pixels. -/
theorem grayFrame_eq {width height : Nat} (chroma : ChromaFormat) {raster : Bytes}
    (h : raster.size = width * height) :
    grayFrame raster width height chroma = do
      reserve (width * height)
      return .ofGray width height chroma raster h := by
  obtain hroom | hfull := Nat.lt_or_ge (width * height) allocationLimit
  · have hchroma : (chroma.chromaSize width height).1 * (chroma.chromaSize width height).2 <
        allocationLimit := Nat.lt_of_le_of_lt (chroma.chromaArea_le width height) hroom
    simp only [grayFrame, Plane.ofBytes?_eq_ofPacked h, Plane.filled?, reserve_of_lt hroom,
      reserve_of_lt hchroma, bind, Except.bind, pure, Except.pure]
    exact Frame.ofPlanes?_eq_ok_iff.mpr ⟨rfl, rfl⟩
  · rw [grayFrame, reserve_of_le hfull]
    rfl

/-- What follows a gray header is the byte that ends it and the raster. -/
theorem read_append {width height : Nat} {header rest : List UInt8} (chroma : ChromaFormat)
    (h : GrayHeader width height header) (hwidth : 0 < width) (hheight : 0 < height)
    (hword : width * height < 1 <<< 64) (hrest : Ends rest) :
    read (header ++ rest).toArray chroma =
      if rest.length < 1 + width * height then .error .truncated
      else grayFrame ((rest.drop 1).take (width * height)).toArray width height chroma := by
  have hsides : width < 1 <<< 64 ∧ height < 1 <<< 64 :=
    ⟨Nat.lt_of_le_of_lt (Nat.le_mul_of_pos_right width hheight) hword,
      Nat.lt_of_le_of_lt (Nat.le_mul_of_pos_left height hwidth) hword⟩
  have hheader := readHeader_append h hwidth hheight hsides hrest
  have hsize : ¬ 1 <<< 64 ≤ width * height * PnmKind.gray.channels := by
    rw [PnmKind.channels, Nat.mul_one]
    exact Nat.not_le.mpr hword
  simp only [read, hheader, bind, Except.bind, hsize, if_false]
  simp only [PnmKind.channels, Nat.mul_one]
  by_cases hshort : rest.length < 1 + width * height
  · simp only [hshort, if_true]
    rfl
  · simp only [hshort, if_false]

section Raster

variable {width height : Nat} {header : List UInt8} {sep : UInt8} (chroma : ChromaFormat)
  (h : GrayHeader width height header) (hwidth : 0 < width) (hheight : 0 < height)
  (hword : width * height < 1 <<< 64) (hsep : isSpace sep)

include h hwidth hheight hword hsep

/-- The raster behind a header is taken as it is, and what lies behind it is left alone. -/
theorem read_raster {raster : Bytes} (hraster : raster.size = width * height)
    (trailing : List UInt8) :
    read (header ++ sep :: (raster.toList ++ trailing)).toArray chroma = do
      reserve (width * height)
      return .ofGray width height chroma raster hraster := by
  have hlength : raster.toList.length = width * height := by rw [Array.length_toList, hraster]
  have hrest : Ends (sep :: (raster.toList ++ trailing)) := by
    intro byte hbyte
    cases hbyte
    exact hsep
  have hlong : ¬ (sep :: (raster.toList ++ trailing)).length < 1 + width * height := by
    rw [List.length_cons, List.length_append]
    omega
  rw [read_append chroma h hwidth hheight hword hrest, if_neg hlong, List.drop_one, List.tail_cons,
    ← hlength, List.take_left, Array.toArray_toList, hlength, grayFrame_eq chroma hraster]

/-- A raster that is cut short is missed. -/
theorem read_cut {raster : List UInt8} (hraster : raster.length < width * height) :
    read (header ++ sep :: raster).toArray chroma = .error .truncated := by
  have hrest : Ends (sep :: raster) := by
    intro byte hbyte
    cases hbyte
    exact hsep
  rw [read_append chroma h hwidth hheight hword hrest, if_pos (by rw [List.length_cons]; omega)]

end Raster

/-- A number is written as a numeral. -/
theorem numeral_toString (n : Nat) : Numeral n (toString n).toUTF8.data.toList := by
  have hbytes : (toString n).toUTF8.data.toList =
      (Nat.toDigits 10 n).flatMap String.utf8EncodeChar := by
    rw [Nat.toString_eq_repr, Nat.repr_eq_ofList_toDigits, String.toUTF8,
      String.toByteArray_ofList, List.utf8Encode]
    simp
  rw [hbytes]
  clear hbytes
  induction n using Nat.strongRecOn with
  | ind n ih =>
      rw [Nat.toDigits_eq_if (by decide)]
      by_cases hlt : n < 10
      · rw [if_pos hlt, List.flatMap_singleton, (digit_ofNat hlt).2.2]
        exact numeral_digit hlt
      · have hlast := Nat.mod_lt n (show 0 < 10 by decide)
        have h := (ih (n / 10) (by omega)).append_digit hlast
        rw [Nat.div_add_mod] at h
        rw [if_neg hlt, List.flatMap_append, List.flatMap_singleton, (digit_ofNat hlast).2.2]
        exact h

/-- The writer spells a header that the reader knows. -/
theorem write_gray (f : Frame) :
    ∃ header sep, GrayHeader f.width f.height header ∧ isSpace sep ∧
      write f .gray = (header ++ sep :: f.planes.luma.toPacked.toList).toArray := by
  have hline : Gap [0x0A] := .single (by decide)
  have hspace : Gap [0x20] := .single (by decide)
  refine ⟨_, 0x0A, .intro .nil hline (numeral_toString f.width) hspace
    (numeral_toString f.height) hline, by decide, ?_⟩
  have hmagic : (toString PnmKind.gray.magic).toByteArray.data = #[0x50, 0x35] := by decide
  have hlineText : (toString "\n").toByteArray.data = #[0x0A] := by decide
  have hspaceText : (toString " ").toByteArray.data = #[0x20] := by decide
  have hmaxval : (toString "\n255\n").toByteArray.data = #[0x0A, 0x32, 0x35, 0x35, 0x0A] := by
    decide
  apply Array.ext'
  simp only [write, String.toUTF8, String.toByteArray_append, ByteArray.data_append, hmagic,
    hlineText, hspaceText, hmaxval, Array.toList_append]
  simp

end Pnm

end HopCodec
