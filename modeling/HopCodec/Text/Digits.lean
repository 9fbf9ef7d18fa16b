/-
Decimal digits at the beginning of a text.
-/

namespace HopCodec

namespace Text

/-- Whether a character is one of the ten ASCII digits. -/
def isDigit (c : Char) : Bool :=
  '0' ≤ c && c ≤ '9'

/-- The number that a list of digits spells. -/
def digitsValue (digits : List Char) : Nat :=
  digits.foldl (fun n c => 10 * n + (c.toNat - '0'.toNat)) 0

/-- The number spelt by the longest run of digits at the beginning, if there is one and the number
lies below a bound, with the text after it. -/
def leadingNumber? (bound : Nat) (text : List Char) : Option (Nat × List Char) :=
  let digits := text.takeWhile isDigit
  let value := digitsValue digits
  if digits.isEmpty then none
  else if value < bound then some (value, text.dropWhile isDigit)
  else none

/-- The number that a whole text spells.  A plus sign may stand before the digits. -/
def wholeNumber? (bound : Nat) (text : List Char) : Option Nat :=
  let text := match text with
    | '+' :: rest => rest
    | _ => text
  match leadingNumber? bound text with
  | some (value, []) => some value
  | _ => none

end Text

end HopCodec
