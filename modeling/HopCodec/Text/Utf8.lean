/-
Reading bytes as UTF-8 text.  Every maximal piece that cannot be the beginning of a character is
read as one replacement character, so that any byte string has a text.
-/
import HopCodec.Raster

namespace HopCodec

namespace Utf8

/-- The character that stands for bytes that are not UTF-8. -/
def replacement : Char := '\uFFFD'

/-- What the first byte of a character announces: the number of bytes that follow, the bounds of
the first of them, and the bits it contributes itself. -/
structure Lead where
  following : Nat
  low : Nat
  high : Nat
  bits : Nat

/-- A byte that may begin a character of more than one byte. -/
def lead? (byte : Nat) : Option Lead :=
  if 0xC2 ≤ byte ∧ byte ≤ 0xDF then some ⟨1, 0x80, 0xBF, byte - 0xC0⟩
  else if byte = 0xE0 then some ⟨2, 0xA0, 0xBF, 0⟩
  else if byte = 0xED then some ⟨2, 0x80, 0x9F, 0xD⟩
  else if 0xE1 ≤ byte ∧ byte ≤ 0xEF then some ⟨2, 0x80, 0xBF, byte - 0xE0⟩
  else if byte = 0xF0 then some ⟨3, 0x90, 0xBF, 0⟩
  else if 0xF1 ≤ byte ∧ byte ≤ 0xF3 then some ⟨3, 0x80, 0xBF, byte - 0xF0⟩
  else if byte = 0xF4 then some ⟨3, 0x80, 0x8F, 4⟩
  else none

/-- Where a reading of text stands: between characters, or inside one that still needs bytes, of
which the next lies within bounds. -/
inductive State
  | between
  | inside (needed low high bits : Nat)

/-- Begin a character. -/
def State.begin (byte : Nat) : List Char × State :=
  if byte < 0x80 then ([Char.ofNat byte], .between)
  else
    match lead? byte with
    | some l => ([], .inside l.following l.low l.high l.bits)
    | none => ([replacement], .between)

/-- Take one byte: the characters it completes, and where the reading stands then. -/
def State.step (s : State) (byte : Nat) : List Char × State :=
  match s with
  | .between => State.begin byte
  | .inside needed low high bits =>
      if low ≤ byte ∧ byte ≤ high then
        let bits := bits * 64 + (byte - 0x80)
        if needed ≤ 1 then ([Char.ofNat bits], .between)
        else ([], .inside (needed - 1) 0x80 0xBF bits)
      else
        let (chars, s) := State.begin byte
        (replacement :: chars, s)

/-- The characters of a byte list from a state on. -/
def decodeFrom (s : State) : List UInt8 → List Char
  | [] =>
      match s with
      | .between => []
      | .inside _ _ _ _ => [replacement]
  | byte :: rest =>
      let (chars, s) := s.step byte.toNat
      chars ++ decodeFrom s rest

/-- The text of a byte list. -/
def decode (bytes : List UInt8) : String :=
  String.ofList (decodeFrom .between bytes)

end Utf8

end HopCodec
