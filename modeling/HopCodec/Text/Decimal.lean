/-
Numbers in columns and with a fixed count of decimal places.
-/

namespace HopCodec

namespace Text

def padLeft (width : Nat) (s : String) : String :=
  String.ofList (List.replicate (width - s.length) ' ') ++ s

def padRight (width : Nat) (s : String) : String :=
  s ++ String.ofList (List.replicate (width - s.length) ' ')

/-- The quotient rounded to the nearest integer, halves to the even neighbour. -/
def roundedQuotient (num den : Nat) : Nat :=
  let q := num / den
  let r := num % den
  if 2 * r < den then q
  else if den < 2 * r then q + 1
  else q + q % 2

/-- A non-negative finite double as a fraction. -/
def fraction (x : Float) : Nat × Nat :=
  let bits := x.toBits.toNat
  let exponent := (bits >>> 52) % (1 <<< 11)
  let mantissa := if exponent = 0 then bits % (1 <<< 52) else bits % (1 <<< 52) + (1 <<< 52)
  let exponent := max exponent 1
  if 1075 ≤ exponent then (mantissa <<< (exponent - 1075), 1)
  else (mantissa, 1 <<< (1075 - exponent))

/-- A number of hundredths with two decimal places. -/
def hundredths (n : Nat) : String :=
  let cents := toString (n % 100)
  toString (n / 100) ++ "." ++ (if cents.length < 2 then "0" ++ cents else cents)

/-- A non-negative finite double with two decimal places, correctly rounded. -/
def twoPlaces (x : Float) : String :=
  let (num, den) := fraction x
  hundredths (roundedQuotient (num * 100) den)

end Text

end HopCodec
