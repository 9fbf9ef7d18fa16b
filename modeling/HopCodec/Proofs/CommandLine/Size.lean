/-
The grammar of sizes.  A size is two numerals with an `x` of either case between them and nothing
around them.  The parser takes every text that is spelt so, as long as both numbers fit and none is
zero, and it takes no other text.
-/
import Mathlib.Data.List.TakeWhile
import Mathlib.Data.Nat.Digits.Defs
import HopCodec.CommandLine.Size
import HopCodec.Proofs.Image.Pnm

namespace HopCodec

namespace Text

/-- A row of ASCII digits that denotes a number.  Any number of zeros may stand in front. -/
structure Numeral (n : Nat) (digits : List Char) : Prop where
  ne_nil : digits ≠ []
  digit : ∀ c ∈ digits, '0' ≤ c ∧ c ≤ '9'
  value : Nat.ofDigits 10 (digits.reverse.map fun c => c.toNat - '0'.toNat) = n

def EndsDigits (rest : List Char) : Prop :=
  ∀ c ∈ rest.head?, ¬ ('0' ≤ c ∧ c ≤ '9')

theorem isDigit_iff {c : Char} : isDigit c = true ↔ '0' ≤ c ∧ c ≤ '9' := by
  simp [isDigit]

/-- Reading from the left and counting places from the right give the same number. -/
theorem digitsValue_eq_ofDigits (digits : List Char) :
    digitsValue digits = Nat.ofDigits 10 (digits.reverse.map fun c => c.toNat - '0'.toNat) := by
  induction digits using List.reverseRecOn with
  | nil => rfl
  | append_singleton before c ih =>
      rw [digitsValue] at ih ⊢
      rw [List.foldl_append, ih, List.reverse_append, List.reverse_singleton, List.singleton_append,
        List.map_cons, Nat.ofDigits_cons, Nat.add_comm]
      rfl

variable {bound n : Nat} {digits text rest : List Char}

theorem numeral_digitsValue (hne : digits ≠ []) (hdigit : ∀ c ∈ digits, isDigit c = true) :
    Numeral (digitsValue digits) digits :=
  ⟨hne, fun c hc => isDigit_iff.mp (hdigit c hc), (digitsValue_eq_ofDigits digits).symm⟩

theorem Numeral.digitsValue_eq (h : Numeral n digits) : digitsValue digits = n :=
  (digitsValue_eq_ofDigits digits).trans h.value

theorem endsDigits_dropWhile (text : List Char) : EndsDigits (text.dropWhile isDigit) := by
  intro c hc hdigit
  have hnot := List.head?_dropWhile_not isDigit text
  rw [Option.mem_def.mp hc] at hnot
  exact Bool.eq_false_iff.mp hnot (isDigit_iff.mpr hdigit)

/-- The digits at the beginning of a text are read if they make a numeral below the bound. -/
theorem leadingNumber?_eq_some_iff :
    leadingNumber? bound text = some (n, rest) ↔
      n < bound ∧ EndsDigits rest ∧ ∃ digits, Numeral n digits ∧ text = digits ++ rest := by
  constructor
  · intro h
    by_cases hempty : (text.takeWhile isDigit).isEmpty
    · rw [leadingNumber?, if_pos hempty] at h
      cases h
    by_cases hbound : digitsValue (text.takeWhile isDigit) < bound
    · rw [leadingNumber?, if_neg hempty, if_pos hbound] at h
      cases h
      exact ⟨hbound, endsDigits_dropWhile text, _,
        numeral_digitsValue (by simpa using hempty) fun c hc => List.mem_takeWhile_imp hc,
        List.takeWhile_append_dropWhile.symm⟩
    · rw [leadingNumber?, if_neg hempty, if_neg hbound] at h
      cases h
  · rintro ⟨hbound, hrest, digits, hnumeral, rfl⟩
    obtain ⟨htake, hdrop⟩ := takeWhile_dropWhile_append
      (fun c hc => isDigit_iff.mpr (hnumeral.digit c hc)) rest
      (fun c hc => Bool.eq_false_iff.mpr fun h => hrest c hc (isDigit_iff.mp h))
    rw [leadingNumber?, htake, hdrop, if_neg (by simpa using hnumeral.ne_nil),
      hnumeral.digitsValue_eq, if_pos hbound]

end Text

namespace Size

open Text (Numeral EndsDigits leadingNumber?_eq_some_iff)

inductive Spelling (width height : Nat) : List Char → Prop
  | intro {digitsW digitsH : List Char} {cross : Char} (hwidth : Numeral width digitsW)
      (hcross : cross = 'x' ∨ cross = 'X') (hheight : Numeral height digitsH) :
      Spelling width height (digitsW ++ cross :: digitsH)

variable {width height : Nat}

theorem endsDigits_cross {cross : Char} (hcross : cross = 'x' ∨ cross = 'X') (rest : List Char) :
    EndsDigits (cross :: rest) := by
  intro c hc
  cases hc
  obtain rfl | rfl := hcross
  · decide
  · decide

/-- Two numbers of 32 bits are read from their spellings and from nothing else. -/
theorem pair?_eq_some_iff {text : List Char} :
    pair? text = some (width, height) ↔
      Spelling width height text ∧ width < 2 ^ 32 ∧ height < 2 ^ 32 := by
  constructor
  · intro h
    obtain ⟨⟨w, rest⟩, hlead, hrest⟩ := Option.bind_eq_some_iff.mp h
    obtain ⟨hwidth, -, digitsW, hdigitsW, htext⟩ := leadingNumber?_eq_some_iff.mp hlead
    rcases rest with - | ⟨cross, rest⟩
    · cases hrest
    dsimp only at hrest
    by_cases hcross : (cross = 'x' || cross = 'X') = true
    · rw [if_pos hcross] at hrest
      obtain ⟨⟨k, tail⟩, hlead', htail⟩ := Option.bind_eq_some_iff.mp hrest
      obtain ⟨hheight, -, digitsH, hdigitsH, hdigits⟩ := leadingNumber?_eq_some_iff.mp hlead'
      rcases tail with - | ⟨c, tail⟩
      · cases htail
        rw [htext, hdigits, List.append_nil]
        exact ⟨.intro hdigitsW (by simpa using hcross) hdigitsH, hwidth, hheight⟩
      · cases htail
    · rw [if_neg hcross] at hrest
      cases hrest
  · rintro ⟨@⟨digitsW, digitsH, cross, hdigitsW, hcross, hdigitsH⟩, hwidth, hheight⟩
    have hlead : Text.leadingNumber? (1 <<< 32) (digitsW ++ cross :: digitsH) =
        some (width, cross :: digitsH) :=
      leadingNumber?_eq_some_iff.mpr
        ⟨hwidth, endsDigits_cross hcross _, digitsW, hdigitsW, rfl⟩
    have hlead' : Text.leadingNumber? (1 <<< 32) digitsH = some (height, []) :=
      leadingNumber?_eq_some_iff.mpr
        ⟨hheight, by simp [EndsDigits], digitsH, hdigitsH, (List.append_nil _).symm⟩
    have hcase : (cross = 'x' || cross = 'X') = true := by simpa using hcross
    simp only [pair?, hlead, hlead', hcase, bind, Option.bind, if_true, List.isEmpty_nil]

variable {text : String}

theorem parse_of_pair? (h : pair? text.toList = some (width, height)) :
    parse text =
      if width = 0 ∨ height = 0 then .error (.zero text) else .ok (width, height) := by
  rw [parse, h]

theorem parse_of_pair?_eq_none (h : pair? text.toList = none) :
    parse text = .error (.malformed text) := by
  rw [parse, h]

/-- A size is accepted if it is spelt so and both sides are positive and below `2 ^ 32`. -/
theorem parse_eq_ok_iff :
    parse text = .ok (width, height) ↔
      Spelling width height text.toList ∧
        (1 ≤ width ∧ width < 2 ^ 32) ∧ 1 ≤ height ∧ height < 2 ^ 32 := by
  constructor
  · intro h
    rcases hpair : pair? text.toList with - | ⟨w, k⟩
    · rw [parse_of_pair?_eq_none hpair] at h
      cases h
    rw [parse_of_pair? hpair] at h
    obtain ⟨hspelling, hwidth, hheight⟩ := pair?_eq_some_iff.mp hpair
    by_cases hzero : w = 0 ∨ k = 0
    · rw [if_pos hzero] at h
      cases h
    · rw [if_neg hzero] at h
      cases h
      exact ⟨hspelling, ⟨by omega, hwidth⟩, by omega, hheight⟩
  · rintro ⟨hspelling, ⟨hw, hwidth⟩, hh, hheight⟩
    rw [parse_of_pair? (pair?_eq_some_iff.mpr ⟨hspelling, hwidth, hheight⟩)]
    exact if_neg (by omega)

/-- A size is refused for one of two causes: no reading of it has two numbers of 32 bits, or one of
them is zero. -/
theorem parse_eq_error_iff {fault : SizeFault} :
    parse text = .error fault ↔
      (fault = .malformed text ∧ ∀ width height, Spelling width height text.toList →
        2 ^ 32 ≤ width ∨ 2 ^ 32 ≤ height) ∨
      (fault = .zero text ∧ ∃ width height, Spelling width height text.toList ∧
        width < 2 ^ 32 ∧ height < 2 ^ 32 ∧ (width = 0 ∨ height = 0)) := by
  constructor
  · intro h
    rcases hpair : pair? text.toList with - | ⟨w, k⟩
    · rw [parse_of_pair?_eq_none hpair] at h
      cases h
      refine .inl ⟨rfl, fun width height hspelling => ?_⟩
      by_contra hsmall
      rw [pair?_eq_some_iff.mpr ⟨hspelling, by omega, by omega⟩] at hpair
      cases hpair
    rw [parse_of_pair? hpair] at h
    obtain ⟨hspelling, hwidth, hheight⟩ := pair?_eq_some_iff.mp hpair
    by_cases hzero : w = 0 ∨ k = 0
    · rw [if_pos hzero] at h
      cases h
      exact .inr ⟨rfl, w, k, hspelling, hwidth, hheight, hzero⟩
    · rw [if_neg hzero] at h
      cases h
  · rintro (⟨rfl, hlarge⟩ | ⟨rfl, width, height, hspelling, hwidth, hheight, hzero⟩)
    · refine parse_of_pair?_eq_none (Option.eq_none_iff_forall_ne_some.mpr ?_)
      rintro ⟨w, k⟩ hpair
      obtain ⟨hspelling, hwidth, hheight⟩ := pair?_eq_some_iff.mp hpair
      have := hlarge w k hspelling
      omega
    · rw [parse_of_pair? (pair?_eq_some_iff.mpr ⟨hspelling, hwidth, hheight⟩)]
      exact if_pos hzero

theorem blockCount_eq_ok_iff {n : Nat} {count : UInt8} :
    blockCount n = .ok count ↔ count.toNat = n := by
  constructor
  · intro h
    by_cases hfit : n ≤ 255
    · rw [blockCount, if_pos hfit] at h
      cases h
      exact UInt8.toNat_ofNat_of_lt' (Nat.lt_succ_of_le hfit)
    · rw [blockCount, if_neg hfit] at h
      cases h
  · rintro rfl
    rw [blockCount, if_pos (Nat.le_of_lt_succ count.toNat_lt), UInt8.ofNat_toNat]

/-- A block grid is a size whose sides are at most 255. -/
theorem parseBlocks_eq_ok_iff :
    (parseBlocks text).map (fun grid => (grid.1.toNat, grid.2.toNat)) = .ok (width, height) ↔
      parse text = .ok (width, height) ∧ width ≤ 255 ∧ height ≤ 255 := by
  constructor
  · intro h
    rcases hgrid : parseBlocks text with fault | grid
    · rw [hgrid] at h
      cases h
    obtain ⟨size, hsize, hgrid'⟩ := bind_eq_ok_iff.mp hgrid
    obtain ⟨columns, hcolumns, hgrid'⟩ := bind_eq_ok_iff.mp hgrid'
    obtain ⟨rows, hrows, hgrid'⟩ := bind_eq_ok_iff.mp hgrid'
    obtain rfl := pure_eq_ok_iff.mp hgrid'
    rw [hgrid] at h
    cases h
    rw [blockCount_eq_ok_iff] at hcolumns hrows
    exact ⟨by rw [hsize, hcolumns, hrows], Nat.le_of_lt_succ columns.toNat_lt,
      Nat.le_of_lt_succ rows.toNat_lt⟩
  · rintro ⟨h, hwidth, hheight⟩
    obtain ⟨columns, rfl⟩ : ∃ columns : UInt8, columns.toNat = width :=
      ⟨UInt8.ofNat width, UInt8.toNat_ofNat_of_lt' (Nat.lt_succ_of_le hwidth)⟩
    obtain ⟨rows, rfl⟩ : ∃ rows : UInt8, rows.toNat = height :=
      ⟨UInt8.ofNat height, UInt8.toNat_ofNat_of_lt' (Nat.lt_succ_of_le hheight)⟩
    have hcolumns : blockCount columns.toNat = .ok columns := blockCount_eq_ok_iff.mpr rfl
    have hrows : blockCount rows.toNat = .ok rows := blockCount_eq_ok_iff.mpr rfl
    simp only [parseBlocks, h, hcolumns, hrows, bind, Except.bind]
    rfl

end Size

end HopCodec
