/-
The bit reader of the machine.  Bits wait at the high end of a 64-bit word that is refilled byte
by byte; a budget bounds how many may be read.
-/
import HopCodec.Machine.Word
import HopCodec.Bits.Reader

namespace HopCodec.Machine

/-- A word of waiting bits over a byte string. -/
structure Cursor where
  src : Bytes
  /-- The next byte to load. -/
  next : Nat
  /-- The waiting bits, at the high end of the word. -/
  held : Nat
  /-- How many bits wait. -/
  count : Nat
  consumed : Nat
  budget : Nat

/-- A computation that reads bits. -/
abbrev Scanner := StateT Cursor Run

namespace Cursor

/-- Read at most `budget` bits of a byte string. -/
def withBudget (src : Bytes) (budget : Nat) : Run Cursor := do
  return ⟨src, 0, 0, 0, 0, min budget (← mul src.size 8)⟩

def ofBytes (src : Bytes) : Run Cursor := do
  withBudget src (← mul src.size 8)

/-- Load one byte behind the waiting bits. -/
def load (c : Cursor) : Run Cursor := do
  let byte ← fetch c.src c.next
  let bits ← shiftLeft 64 byte.toNat (← sub 56 c.count)
  let count ← fit halfSize (c.count + 8)
  let next ← add c.next 1
  return { c with next, count, held := c.held ||| bits }

/-- Load bytes as long as there is room and data, `fuel` of them at most. -/
def refillFor : (fuel : Nat) → Cursor → Run Cursor
  | 0, c =>
      if c.count ≤ 56 ∧ c.next < c.src.size then .error (.trap .endlessLoop) else .ok c
  | fuel + 1, c =>
      if c.count ≤ 56 ∧ c.next < c.src.size then do refillFor fuel (← c.load) else .ok c

/-- A word has room for eight bytes. -/
def refill (c : Cursor) : Run Cursor :=
  c.refillFor 8

/-- Refill if fewer than `n` bits wait. -/
def supply (c : Cursor) (n : Nat) : Run Cursor :=
  if c.count < n then c.refill else .ok c

/-- Take bits off the high end of the word. -/
def take (c : Cursor) (n : Nat) : Run Cursor := do
  let held ← shiftLeft 64 c.held n
  let count ← sub c.count n
  let consumed ← add c.consumed n
  return { c with held, count, consumed }

end Cursor

namespace Scanner

def bit : Scanner Bool := fun c => do
  if c.budget ≤ c.consumed then refuse .truncated
  let c ← c.supply 1
  let bit ← shiftRight 64 c.held 63
  return (bit = 1, ← c.take 1)

/-- Read at most 32 bits as a number. -/
def bits (n : Nat) : Scanner Nat := fun c => do
  ensure (n ≤ 32)
  if n = 0 then return (0, c)
  if c.budget < (← add c.consumed n) then refuse .truncated
  let c ← c.supply n
  let value ← shiftRight 64 c.held (← sub 64 n)
  return (value % halfSize, ← c.take n)

def byte : Scanner UInt8 := do
  return UInt8.ofNat (← bits 8)

/-- Read four bytes, the least significant one first. -/
def word : Scanner UInt32 := do
  let b0 ← byte
  let b1 ← byte
  let b2 ← byte
  let b3 ← byte
  return b0.toUInt32 ||| (b1.toUInt32 <<< 8) ||| (b2.toUInt32 <<< 16) ||| (b3.toUInt32 <<< 24)

/-- The bits that may still be read. -/
def remaining : Scanner Nat := fun c => do
  return (← sub c.budget c.consumed, c)

/-- Read `n` values one after another. -/
def list {α : Type} (read : Scanner α) : Nat → Scanner (List α)
  | 0 => return []
  | n + 1 => do
      let a ← read
      return a :: (← list read n)

end Scanner

end HopCodec.Machine
