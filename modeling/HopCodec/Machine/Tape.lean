/-
The bit reader of the machine in its caller's hands.  A read that fails leaves a cursor behind,
and the caller may go on reading from there.
-/
import HopCodec.Bits.Calls
import HopCodec.Machine.Cursor

namespace HopCodec.Machine

/-- A computation that reads bits and leaves a cursor behind also when it fails. -/
abbrev Tape := ExceptT Fault (StateT Cursor Run)

namespace Tape

def bit : Tape Bool := fun c => do
  if c.budget ≤ c.consumed then return (.error .truncated, c)
  let c ← c.supply 1
  let bit ← shiftRight 64 c.held 63
  return (.ok (bit = 1), ← c.take 1)

/-- Read at most 32 bits as a number. -/
def bits (n : Nat) : Tape Nat := fun c => do
  ensure (n ≤ 32)
  if n = 0 then return (.ok 0, c)
  if c.budget < (← add c.consumed n) then return (.error .truncated, c)
  let c ← c.supply n
  let value ← shiftRight 64 c.held (← sub 64 n)
  return (.ok (value % halfSize), ← c.take n)

def byte : Tape UInt8 := do
  return UInt8.ofNat (← bits 8)

/-- Read four bytes, the least significant one first. -/
def word : Tape UInt32 := do
  let b0 ← byte
  let b1 ← byte
  let b2 ← byte
  let b3 ← byte
  return b0.toUInt32 ||| (b1.toUInt32 <<< 8) ||| (b2.toUInt32 <<< 16) ||| (b3.toUInt32 <<< 24)

def call : ReadCall → Tape Nat
  | .bit => Bool.toNat <$> bit
  | .bits n _ => bits n
  | .byte => UInt8.toNat <$> byte
  | .word => UInt32.toNat <$> word

end Tape

/-- The bits that may still be read. -/
def Cursor.remaining (c : Cursor) : Run Nat :=
  sub c.budget c.consumed

def Cursor.desk : Desk Run Cursor where
  read call c := (Tape.call call).run c
  consumed := Cursor.consumed
  remaining := Cursor.remaining

end HopCodec.Machine
