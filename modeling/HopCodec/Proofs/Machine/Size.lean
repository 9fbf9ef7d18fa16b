/-
Sizes are read on the machine as they are on lists of characters.  A digit is a character of one
byte and no other character begins with such a byte, so the digits at the beginning of a text end
where a character begins, whatever comes after them; and as a number only grows with its digits,
giving it up early is the same as comparing it with its bound at the end.
-/
import HopCodec.Machine.Size
import HopCodec.Proofs.CommandLine.Size
import HopCodec.Proofs.Machine.Pnm

namespace HopCodec

namespace Machine.Size

/-- The bytes of a text are those of its characters. -/
theorem toList_bytes (text : List Char) :
    (String.ofList text).toUTF8.data.toList = text.flatMap String.utf8EncodeChar := by
  rw [String.toUTF8, String.toByteArray_ofList, List.utf8Encode]
  simp

theorem utf8ByteSize_ofList (text : List Char) :
    (String.ofList text).utf8ByteSize = (text.flatMap String.utf8EncodeChar).length := by
  rw [← toList_bytes, Array.length_toList]
  rfl

theorem isDigit_ofNat {n : Nat} (h : n < 256) :
    isDigit (UInt8.ofNat n) = true ↔ 48 ≤ n ∧ n ≤ 57 := by
  have hbyte : (UInt8.ofNat n).toNat = n := UInt8.toNat_ofNat_of_lt' h
  have hlow : (0x30 : UInt8).toNat = 48 := rfl
  have hhigh : (0x39 : UInt8).toNat = 57 := rfl
  rw [isDigit, Bool.and_eq_true, decide_eq_true_iff, decide_eq_true_iff, UInt8.le_iff_toNat_le,
    UInt8.le_iff_toNat_le, hbyte, hlow, hhigh]

/-- A digit is one byte, and the byte says the same digit. -/
theorem utf8EncodeChar_digit {c : Char} (h : Text.isDigit c = true) :
    ∃ byte, String.utf8EncodeChar c = [byte] ∧ isDigit byte = true ∧
      byte.toNat - 0x30 = c.toNat - '0'.toNat := by
  have hcode : 48 ≤ c.toNat ∧ c.toNat ≤ 57 := Text.isDigit_iff.mp h
  refine ⟨UInt8.ofNat c.toNat, ?_, (isDigit_ofNat (by omega)).mpr hcode, ?_⟩
  · rw [String.utf8EncodeChar]
    exact if_pos (show c.toNat ≤ 127 by omega)
  · rw [UInt8.toNat_ofNat_of_lt' (show c.toNat < 256 by omega)]
    rfl

/-- The first byte of a character that is no digit is not the byte of a digit. -/
theorem utf8EncodeChar_other {c : Char} (h : Text.isDigit c = false) :
    ∃ byte more, String.utf8EncodeChar c = byte :: more ∧ isDigit byte = false := by
  have hcode : ¬ (48 ≤ c.toNat ∧ c.toNat ≤ 57) := fun hcode =>
    Bool.eq_false_iff.mp h (Text.isDigit_iff.mpr hcode)
  have hother {n : Nat} (hn : n < 256) (hcode : ¬ (48 ≤ n ∧ n ≤ 57)) :
      isDigit (UInt8.ofNat n) = false :=
    Bool.eq_false_iff.mpr fun hdigit => hcode ((isDigit_ofNat hn).mp hdigit)
  rw [String.utf8EncodeChar, show c.val.toNat = c.toNat from rfl]
  -- one to four bytes; the first of several ones is at least 192
  split
  · exact ⟨_, _, rfl, hother (by omega) hcode⟩
  split
  · exact ⟨_, _, rfl, hother (by omega) (by omega)⟩
  split
  · exact ⟨_, _, rfl, hother (by omega) (by omega)⟩
  · exact ⟨_, _, rfl, hother (by omega) (by omega)⟩

/-- What does not begin with a digit does not begin with the byte of one. -/
theorem isDigit_head_bytes {rest : List Char} (h : Text.EndsDigits rest) :
    ∀ byte ∈ (rest.flatMap String.utf8EncodeChar).head?, isDigit byte = false := by
  rcases rest with - | ⟨c, rest⟩
  · simp
  · have hc : Text.isDigit c = false :=
      Bool.eq_false_iff.mpr fun hdigit => h c rfl (Text.isDigit_iff.mp hdigit)
    obtain ⟨first, more, hencode, hfirst⟩ := utf8EncodeChar_other hc
    rw [List.flatMap_cons, hencode]
    rintro byte hbyte
    cases hbyte
    exact hfirst

/-- A text that consists of two pieces is cut where they meet. -/
theorem exists_boundary (a b : String) :
    ∃ p, boundary (a ++ b) a.utf8ByteSize = .ok p ∧ p.Splits a b := by
  have hvalid : String.Pos.Raw.IsValid (a ++ b) ⟨a.utf8ByteSize⟩ :=
    String.Pos.Raw.isValid_iff_exists_append.mpr ⟨a, b, rfl, rfl⟩
  exact ⟨⟨⟨a.utf8ByteSize⟩, hvalid⟩, dif_pos hvalid, .mk rfl rfl⟩

theorem before_append (a b : String) : before (a ++ b) a.utf8ByteSize = .ok a := by
  obtain ⟨p, hcut, hsplits⟩ := exists_boundary a b
  rw [before, hcut, ok_bind, hsplits.copy_sliceTo_eq]
  rfl

theorem behind_append (a b : String) : behind (a ++ b) a.utf8ByteSize = .ok b := by
  obtain ⟨p, hcut, hsplits⟩ := exists_boundary a b
  rw [behind, hcut, ok_bind, hsplits.copy_sliceFrom_eq]
  rfl

/-- What one more digit makes of a number, if it stays below the bound. -/
theorem pushDigit?_eq {bound n : Nat} {byte : UInt8} (h : isDigit byte = true) :
    pushDigit? bound n byte = within? bound (10 * n + (byte.toNat - 0x30)) := by
  rw [pushDigit?, if_pos h]
  by_cases htens : 10 * n < bound
  · rw [within?, if_pos htens]
    rfl
  · rw [within?, if_neg htens, within?, if_neg (by omega)]
    rfl

/-- A number does not fall with its digits. -/
theorem le_foldl_digits (digits : List Char) (n : Nat) :
    n ≤ digits.foldl (fun n c => 10 * n + (c.toNat - '0'.toNat)) n := by
  induction digits generalizing n with
  | nil => exact Nat.le_refl n
  | cons c digits ih => exact Nat.le_trans (by omega) (ih (10 * n + (c.toNat - '0'.toNat)))

section Digits

variable {digits rest : List Char} (hdigits : ∀ c ∈ digits, Text.isDigit c = true)

include hdigits

theorem isDigit_of_mem_bytes {byte : UInt8} (h : byte ∈ digits.flatMap String.utf8EncodeChar) :
    isDigit byte = true := by
  obtain ⟨c, hc, hbyte⟩ := List.mem_flatMap.mp h
  obtain ⟨digit, hencode, hdigit, -⟩ := utf8EncodeChar_digit (hdigits c hc)
  rw [hencode, List.mem_singleton] at hbyte
  rw [hbyte, hdigit]

/-- The digits at the beginning are counted up to the first byte of another character. -/
theorem countDigits_append (hrest : Text.EndsDigits rest)
    (hword : (String.ofList digits ++ String.ofList rest).utf8ByteSize < wordSize) :
    countDigits (String.ofList digits ++ String.ofList rest) =
      .ok (String.ofList digits).utf8ByteSize := by
  rw [← String.ofList_append] at hword ⊢
  have htake := (takeWhile_dropWhile_append (fun byte => isDigit_of_mem_bytes hdigits)
    _ (isDigit_head_bytes hrest)).1
  rw [← List.flatMap_append, ← toList_bytes] at htake
  have hbytes : (String.ofList (digits ++ rest)).toUTF8.data.size < wordSize := hword
  rw [countDigits, Pnm.scan_eq isDigit hbytes (Nat.zero_le _) (by omega), Pnm.stopOf, Pnm.behind,
    List.drop_zero, htake, Nat.zero_add, utf8ByteSize_ofList]

/-- Giving a number up when it reaches its bound is comparing it with the bound at the end. -/
theorem foldlM_pushDigit? {bound n : Nat} (hn : n < bound) :
    (digits.flatMap String.utf8EncodeChar).foldlM (pushDigit? bound) n =
      within? bound (digits.foldl (fun n c => 10 * n + (c.toNat - '0'.toNat)) n) := by
  induction digits generalizing n with
  | nil => exact (if_pos hn).symm
  | cons c digits ih =>
      obtain ⟨byte, hencode, hdigit, hvalue⟩ := utf8EncodeChar_digit (hdigits c List.mem_cons_self)
      rw [List.flatMap_cons, hencode, List.singleton_append, List.foldlM_cons,
        pushDigit?_eq hdigit, hvalue, List.foldl_cons]
      by_cases hfit : 10 * n + (c.toNat - '0'.toNat) < bound
      · rw [within?, if_pos hfit]
        exact ih (fun d hd => hdigits d (List.mem_cons_of_mem c hd)) hfit
      · have hle := le_foldl_digits digits (10 * n + (c.toNat - '0'.toNat))
        rw [within?, if_neg hfit, within?, if_neg (by omega)]
        rfl

theorem wholeNumber?_ofList (hne : digits ≠ []) {bound : Nat} (hbound : 0 < bound) :
    wholeNumber? bound (String.ofList digits) = within? bound (Text.digitsValue digits) := by
  have hplus : (digits.flatMap String.utf8EncodeChar).head? ≠ some 0x2B := fun h =>
    absurd (isDigit_of_mem_bytes hdigits (List.mem_of_head? h)) (by decide)
  have hbytes : (digits.flatMap String.utf8EncodeChar).isEmpty = false := by
    obtain ⟨c, more, rfl⟩ := List.exists_cons_of_ne_nil hne
    obtain ⟨byte, hencode, -⟩ := utf8EncodeChar_digit (hdigits c List.mem_cons_self)
    rw [List.flatMap_cons, hencode]
    rfl
  rw [wholeNumber?, toList_bytes, if_neg hplus, hbytes]
  exact foldlM_pushDigit? hdigits hbound

theorem leadingNumber_append (hrest : Text.EndsDigits rest)
    (hword : (String.ofList digits ++ String.ofList rest).utf8ByteSize < wordSize) :
    leadingNumber (String.ofList digits ++ String.ofList rest) =
      .ok (if digits.isEmpty then none
        else (within? halfSize (Text.digitsValue digits)).map fun n => (n, String.ofList rest)) := by
  rw [leadingNumber, countDigits_append hdigits hrest hword, ok_bind]
  by_cases hempty : digits = []
  · rw [hempty]
    rfl
  · have hsize : (String.ofList digits).utf8ByteSize ≠ 0 := by
      rw [ne_eq, String.utf8ByteSize_eq_zero_iff]
      simpa using hempty
    rw [if_neg hsize, before_append, ok_bind, wholeNumber?_ofList hdigits hempty (by decide),
      if_neg (by simpa using hempty)]
    cases within? halfSize (Text.digitsValue digits) with
    | none => rfl
    | some value =>
        dsimp only
        rw [behind_append]
        rfl

end Digits

/-- The number at the beginning of a text, as it is found in its characters. -/
theorem leadingNumber_eq {text : String} (hword : text.utf8ByteSize < wordSize) :
    leadingNumber text = .ok ((Text.leadingNumber? halfSize text.toList).map
      fun found => (found.1, String.ofList found.2)) := by
  have htext : String.ofList (text.toList.takeWhile Text.isDigit) ++
      String.ofList (text.toList.dropWhile Text.isDigit) = text := by
    rw [← String.ofList_append, List.takeWhile_append_dropWhile, String.ofList_toList]
  have hlead := leadingNumber_append (fun c hc => List.mem_takeWhile_imp hc)
    (Text.endsDigits_dropWhile text.toList) (by rw [htext]; exact hword)
  rw [htext] at hlead
  rw [hlead, Text.leadingNumber?, within?]
  split
  · rfl
  split
  · rfl
  · rfl

/-- A character is taken off a text that begins with it. -/
theorem strip_eq (c : Char) (text : List Char) :
    strip c (String.ofList text) = .ok (if text.head? = some c then some (String.ofList text.tail)
      else none) := by
  rw [strip, String.toList_ofList]
  by_cases hhead : text.head? = some c
  · obtain ⟨rest, rfl⟩ : ∃ rest, text = c :: rest := ⟨_, (List.cons_head?_tail hhead).symm⟩
    rw [if_pos hhead, if_pos hhead, List.tail_cons]
    have hsplit : String.ofList (c :: rest) = String.singleton c ++ String.ofList rest := by
      rw [String.singleton_eq_ofList, ← String.ofList_append]
      rfl
    rw [hsplit, ← String.utf8ByteSize_singleton, behind_append]
    rfl
  · rw [if_neg hhead, if_neg hhead]
    rfl

theorem stripCross_eq (text : List Char) :
    stripCross (String.ofList text) = .ok (match text with
      | [] => none
      | c :: rest => if c = 'x' || c = 'X' then some (String.ofList rest) else none) := by
  rw [stripCross, strip_eq, ok_bind, strip_eq]
  rcases text with - | ⟨c, rest⟩
  · rfl
  by_cases hlower : c = 'x'
  · subst hlower
    rfl
  by_cases hupper : c = 'X'
  · subst hupper
    rfl
  · simp [hlower, hupper]

/-- A text is refused where it lacks a part. -/
theorem run_demand_bind {α β : Type} (text : String) (part : Option α) (f : α → Parsing β) :
    (demand text (.ok part) >>= f).run = match part with
      | none => .ok (.error (.malformed text))
      | some a => (f a).run := by
  cases part <;> rfl

/-- What is left of a text fits a word if the text does. -/
theorem utf8ByteSize_suffix_lt {text rest : List Char}
    (hword : (String.ofList text).utf8ByteSize < wordSize) (h : rest <:+ text) :
    (String.ofList rest).utf8ByteSize < wordSize := by
  obtain ⟨before, rfl⟩ := h
  rw [String.ofList_append, String.utf8ByteSize_append] at hword
  omega

/-- The two numbers are those found in the characters of the text. -/
theorem run_pair {text : String} (hword : text.utf8ByteSize < wordSize) :
    (pair text).run = .ok (match HopCodec.Size.pair? text.toList with
      | none => .error (.malformed text)
      | some sides => .ok sides) := by
  have hbits : (1 <<< 32 : Nat) = halfSize := rfl
  rw [pair, leadingNumber_eq hword, run_demand_bind, HopCodec.Size.pair?, hbits]
  rcases hwidth : Text.leadingNumber? halfSize text.toList with - | ⟨width, rest⟩
  · rfl
  obtain ⟨-, -, digits, -, htext⟩ := Text.leadingNumber?_eq_some_iff.mp hwidth
  simp only [Option.map_some, Option.bind_eq_bind, Option.bind_some, stripCross_eq]
  rw [run_demand_bind]
  rcases rest with - | ⟨cross, rest⟩
  · rfl
  by_cases hcross : (cross = 'x' || cross = 'X') = true
  · have hrest : (String.ofList rest).utf8ByteSize < wordSize := by
      rw [← String.ofList_toList (s := text), htext] at hword
      exact utf8ByteSize_suffix_lt hword
        ((List.suffix_cons cross rest).trans (List.suffix_append digits _))
    simp only [if_pos hcross]
    rw [leadingNumber_eq hrest, run_demand_bind, String.toList_ofList]
    rcases Text.leadingNumber? halfSize rest with - | ⟨height, tail⟩
    · rfl
    rcases tail with - | ⟨c, tail⟩
    · rfl
    · have htail : String.ofList (c :: tail) ≠ "" := by simp
      simp only [Option.map_some, if_pos htail]
      rfl
  · simp only [if_neg hcross]

/-- A size is read on the machine as it is from its characters. -/
theorem run_parse {text : String} (hword : text.utf8ByteSize < wordSize) :
    (parse text).run = .ok (HopCodec.Size.parse text) := by
  rw [parse, ExceptT.run_bind, run_pair hword, HopCodec.Size.parse, ok_bind]
  rcases HopCodec.Size.pair? text.toList with - | ⟨width, height⟩
  · rfl
  dsimp only
  by_cases hzero : width = 0 ∨ height = 0
  · rw [if_pos hzero, if_pos hzero]
    rfl
  · rw [if_neg hzero, if_neg hzero]
    rfl

theorem run_parseBlocks {text : String} (hword : text.utf8ByteSize < wordSize) :
    (parseBlocks text).run = .ok (HopCodec.Size.parseBlocks text) := by
  rw [parseBlocks, ExceptT.run_bind, run_parse hword, HopCodec.Size.parseBlocks, ok_bind]
  rcases HopCodec.Size.parse text with fault | ⟨width, height⟩
  · rfl
  simp only [judge, bind, Except.bind]
  rcases HopCodec.Size.blockCount width with fault | columns
  · rfl
  rcases HopCodec.Size.blockCount height with fault | rows
  · rfl
  · rfl

end Machine.Size

namespace Size

/-- Sizes have exactly one grammar: digits, an `x` of either case, digits, and nothing after them.
Both numbers are positive and have 32 bits; in a block grid they are at most 255.  On the machine
every text that fits into memory is judged alike, so none is cut inside a character. -/
theorem grammar_exact (text : String) :
    (∀ width height, parse text = .ok (width, height) ↔
      Spelling width height text.toList ∧
        (1 ≤ width ∧ width < 2 ^ 32) ∧ 1 ≤ height ∧ height < 2 ^ 32) ∧
    (∀ width height, (parseBlocks text).map (fun grid => (grid.1.toNat, grid.2.toNat)) =
        .ok (width, height) ↔
      Spelling width height text.toList ∧
        (1 ≤ width ∧ width ≤ 255) ∧ 1 ≤ height ∧ height ≤ 255) ∧
    (text.utf8ByteSize < Machine.wordSize →
      (Machine.Size.parse text).run = .ok (parse text) ∧
      (Machine.Size.parseBlocks text).run = .ok (parseBlocks text)) := by
  refine ⟨fun width height => parse_eq_ok_iff, fun width height => ?_, fun hword =>
    ⟨Machine.Size.run_parse hword, Machine.Size.run_parseBlocks hword⟩⟩
  rw [parseBlocks_eq_ok_iff, parse_eq_ok_iff]
  constructor
  · rintro ⟨⟨hspelling, ⟨hw, -⟩, hh, -⟩, hwidth, hheight⟩
    exact ⟨hspelling, ⟨hw, hwidth⟩, hh, hheight⟩
  · rintro ⟨hspelling, ⟨hw, hwidth⟩, hh, hheight⟩
    exact ⟨⟨hspelling, ⟨hw, by omega⟩, hh, by omega⟩, hwidth, hheight⟩

/-- Zeros in front of the digits, and a character of two bytes right after them. -/
theorem grammar_exact_zerosAndAccents :
    Spelling 255 16 "00255X16".toList ∧ parse "00255X16" = .ok (255, 16) ∧
      (parseBlocks "00255X16").map (fun grid => (grid.1.toNat, grid.2.toNat)) = .ok (255, 16) ∧
      "12é4".utf8ByteSize < Machine.wordSize ∧
      (Machine.Size.parse "12é4").run = .ok (.error (.malformed "12é4")) := by
  have hspelling : Spelling 255 16 (['0', '0', '2', '5', '5'] ++ 'X' :: ['1', '6']) :=
    .intro ⟨by decide, by simp, by decide⟩ (.inr rfl) ⟨by decide, by simp, by decide⟩
  have hword : "12é4".utf8ByteSize < Machine.wordSize := by decide
  obtain ⟨hsize, hblocks, -⟩ := grammar_exact "00255X16"
  obtain ⟨-, -, hrun⟩ := grammar_exact "12é4"
  have hfault : parse "12é4" = .error (.malformed "12é4") := by decide
  exact ⟨hspelling, (hsize 255 16).mpr ⟨hspelling, by decide⟩,
    (hblocks 255 16).mpr ⟨hspelling, by decide⟩, hword, hfault ▸ (hrun hword).1⟩

end Size

end HopCodec
