/-
The bit writer of the machine.  Bits gather at the high end of a 64-bit word; whole bytes move to
the output as soon as they are complete.
-/
import HopCodec.Machine.Word
import HopCodec.Bits.Calls

namespace HopCodec.Machine

/-- The bytes written so far and a word of gathered bits. -/
structure Packer where
  output : Bytes
  /-- The gathered bits, at the high end of the word. -/
  held : Nat
  /-- How many bits are gathered. -/
  count : Nat

namespace Packer

def empty : Packer :=
  ⟨#[], 0, 0⟩

/-- Move the first byte of the word to the output. -/
def flushByte (p : Packer) : Run Packer := do
  let byte ← shiftRight 64 p.held 56
  let held ← shiftLeft 64 p.held 8
  let count ← sub p.count 8
  return ⟨p.output.push (UInt8.ofNat byte), held, count⟩

/-- Move whole bytes to the output, `fuel` of them at most. -/
def flushFor : (fuel : Nat) → Packer → Run Packer
  | 0, p => if 8 ≤ p.count then .error (.trap .endlessLoop) else .ok p
  | fuel + 1, p => if 8 ≤ p.count then do flushFor fuel (← p.flushByte) else .ok p

/-- The value asked for has no bits beyond those written. -/
def assertFits (value n : Nat) : Run Unit :=
  if n = 32 then .ok () else do ensure ((← shiftRight 32 value n) = 0)

/-- Write the low `n` bits of a number, at most 32.  With up to seven bits waiting these make at
most four whole bytes. -/
def writeBits (value n : Nat) (p : Packer) : Run Packer := do
  ensure (n ≤ 32)
  assertFits value n
  if n = 0 then return p
  let bits ← shiftLeft 64 value (← sub (← sub 64 p.count) n)
  let count ← fit halfSize (p.count + n)
  flushFor 4 ⟨p.output, p.held ||| bits, count⟩

def writeBit (bit : Bool) (p : Packer) : Run Packer :=
  p.writeBits bit.toNat 1

def writeByte (byte : UInt8) (p : Packer) : Run Packer :=
  p.writeBits byte.toNat 8

/-- Write four bytes, the least significant one first. -/
def writeWord (word : UInt32) (p : Packer) : Run Packer := do
  let p ← p.writeByte word.toUInt8
  let p ← p.writeByte (word >>> 8).toUInt8
  let p ← p.writeByte (word >>> 16).toUInt8
  p.writeByte (word >>> 24).toUInt8

def writeCall : WriteCall → Packer → Run Packer
  | .bit bit => writeBit bit
  | .bits value n _ _ => writeBits value n
  | .byte byte => writeByte byte
  | .word word => writeWord word

def writeAll {α : Type} (write : α → Packer → Run Packer) : List α → Packer → Run Packer
  | [], p => .ok p
  | a :: rest, p => do writeAll write rest (← write a p)

def bitLength (p : Packer) : Run Nat := do
  add (← mul p.output.size 8) p.count

/-- All bytes, the last one filled up with zero bits. -/
def finish (p : Packer) : Run Bytes := do
  if p.count = 0 then return p.output
  return p.output.push (UInt8.ofNat (← shiftRight 64 p.held 56))

end Packer

end HopCodec.Machine
