/-
Sizes on the machine.  A text is cut at places among its bytes, and a cut inside a character traps.
The digits at its beginning are counted byte by byte, and a number is given up as soon as one more
digit takes it out of its bound.
-/
import HopCodec.CommandLine.Size
import HopCodec.Machine.Pnm

namespace HopCodec.Machine.Size

/-- A place where a character of a text begins, or where the text ends. -/
def boundary (text : String) (place : Nat) : Run text.Pos :=
  if h : String.Pos.Raw.IsValid text ⟨place⟩ then .ok ⟨⟨place⟩, h⟩
  else .error (.trap .outOfBounds)

/-- The part of a text before a place. -/
def before (text : String) (place : Nat) : Run String := do
  return (text.sliceTo (← boundary text place)).copy

/-- The part of a text from a place on. -/
def behind (text : String) (place : Nat) : Run String := do
  return (text.sliceFrom (← boundary text place)).copy

def isDigit (byte : UInt8) : Bool :=
  0x30 ≤ byte && byte ≤ 0x39

def countDigits (text : String) : Run Nat :=
  let bytes := text.toUTF8.data
  Pnm.scan isDigit bytes (bytes.size + 1) 0

/-- A number, if it lies below a bound. -/
def within? (bound n : Nat) : Option Nat :=
  if n < bound then some n else none

/-- A number with one more digit.  Both the product and the sum have to stay below the bound. -/
def pushDigit? (bound n : Nat) (byte : UInt8) : Option Nat :=
  if isDigit byte then do
    let tens ← within? bound (10 * n)
    within? bound (tens + (byte.toNat - 0x30))
  else none

/-- The number that a whole text spells.  A plus sign may stand before the digits. -/
def wholeNumber? (bound : Nat) (text : String) : Option Nat :=
  let bytes := text.toUTF8.data.toList
  let digits := if bytes.head? = some 0x2B then bytes.tail else bytes
  if digits.isEmpty then none else digits.foldlM (pushDigit? bound) 0

/-- The number of 32 bits that the digits at the beginning of a text spell, and the text after
them. -/
def leadingNumber (text : String) : Run (Option (Nat × String)) := do
  let place ← countDigits text
  if place = 0 then return none
  match wholeNumber? halfSize (← before text place) with
  | none => return none
  | some value => return some (value, ← behind text place)

/-- The text after a character that it begins with. -/
def strip (c : Char) (text : String) : Run (Option String) := do
  if text.toList.head? = some c then return some (← behind text c.utf8Size)
  else return none

/-- The text after an `x` of either case. -/
def stripCross (text : String) : Run (Option String) := do
  match ← strip 'x' text with
  | some rest => return some rest
  | none => strip 'X' text

/-- A program that may find fault with the text that it reads. -/
abbrev Parsing := ExceptT SizeFault Run

/-- Go on with a part that a text has to have. -/
def demand {α : Type} (text : String) (part : Run (Option α)) : Parsing α := do
  match ← part with
  | some a => return a
  | none => throw (.malformed text)

/-- Two numbers with an `x` of either case between them and nothing around them. -/
def pair (text : String) : Parsing (Nat × Nat) := do
  let (width, rest) ← demand text (leadingNumber text)
  let rest ← demand text (stripCross rest)
  let (height, rest) ← demand text (leadingNumber rest)
  if rest ≠ "" then throw (.malformed text)
  return (width, height)

/-- A size whose sides are positive numbers of 32 bits. -/
def parse (text : String) : Parsing (Nat × Nat) := do
  let (width, height) ← pair text
  if width = 0 ∨ height = 0 then throw (.zero text)
  return (width, height)

/-- Go on with a judgement that needs no checks. -/
def judge {α : Type} (x : Except SizeFault α) : Parsing α :=
  .mk (.ok x)

/-- A block grid: a size whose sides fit a byte. -/
def parseBlocks (text : String) : Parsing (UInt8 × UInt8) := do
  let (width, height) ← parse text
  return (← judge (HopCodec.Size.blockCount width), ← judge (HopCodec.Size.blockCount height))

end HopCodec.Machine.Size
