/-
Reading a byte string as a list of bits, most significant bit of each byte first.  A reader is a
cursor with a limit; a read that would pass the limit fails and leaves the cursor where it was.
-/
import HopCodec.Raster

namespace HopCodec

/-- Bit `i` of a byte string. -/
def bitAt (data : Bytes) (i : Nat) : Bool :=
  (data.getD (i / 8) 0).toNat.testBit (7 - i % 8)

/-- The number that a list of bits spells, most significant bit first. -/
def bitsValue (bits : List Bool) : Nat :=
  bits.foldl (fun acc bit => 2 * acc + bit.toNat) 0

/-- A cursor on the bits of a byte string. -/
structure BitReader where
  data : Bytes
  pos : Nat
  limit : Nat
  pos_le_limit : pos ≤ limit
  limit_le_size : limit ≤ 8 * data.size

namespace BitReader

/-- Read at most `budget` bits of a byte string. -/
def withBudget (data : Bytes) (budget : Nat) : BitReader :=
  ⟨data, 0, min budget (8 * data.size), Nat.zero_le _, Nat.min_le_right _ _⟩

def ofBytes (data : Bytes) : BitReader :=
  withBudget data (8 * data.size)

def consumed (r : BitReader) : Nat :=
  r.pos

def remaining (r : BitReader) : Nat :=
  r.limit - r.pos

/-- The bits not read yet. -/
def rest (r : BitReader) : List Bool :=
  (List.range r.remaining).map fun i => bitAt r.data (r.pos + i)

@[simp] theorem length_rest (r : BitReader) : r.rest.length = r.remaining := by
  simp [rest]

/-- The next `n` bits, whether or not the limit allows them. -/
def peek (r : BitReader) (n : Nat) : List Bool :=
  (List.range n).map fun i => bitAt r.data (r.pos + i)

def skip (r : BitReader) (n : Nat) (h : r.pos + n ≤ r.limit) : BitReader :=
  { r with pos := r.pos + n, pos_le_limit := h }

theorem consumed_add_remaining (r : BitReader) : r.consumed + r.remaining = r.limit := by
  have := r.pos_le_limit
  unfold consumed remaining
  omega

end BitReader

/-- A computation that reads bits.  After a failure the cursor stays at the last successful
read. -/
abbrev Reading := EStateM Fault BitReader

namespace Reading

/-- Read `n` bits as a number, or fail without moving. -/
def bits (n : Nat) : Reading Nat := fun r =>
  if h : r.pos + n ≤ r.limit then .ok (bitsValue (r.peek n)) (r.skip n h)
  else .error .truncated r

def bit : Reading Bool := fun r =>
  if h : r.pos + 1 ≤ r.limit then .ok (bitAt r.data r.pos) (r.skip 1 h)
  else .error .truncated r

def byte : Reading UInt8 := do
  return UInt8.ofNat (← bits 8)

/-- Read four bytes, the least significant one first. -/
def word : Reading UInt32 := do
  let b0 ← byte
  let b1 ← byte
  let b2 ← byte
  let b3 ← byte
  return b0.toUInt32 ||| (b1.toUInt32 <<< 8) ||| (b2.toUInt32 <<< 16) ||| (b3.toUInt32 <<< 24)

/-- Read `n` values one after another. -/
def list {α : Type} (read : Reading α) : Nat → Reading (List α)
  | 0 => return []
  | n + 1 => do
      let a ← read
      return a :: (← list read n)

/-- Fail for a reason that is not the end of the data. -/
def refuse {α : Type} (fault : Fault) : Reading α :=
  throw fault

/-- Continue with the result of a computation that reads nothing. -/
def lift {α : Type} : Except Fault α → Reading α
  | .ok a => return a
  | .error fault => refuse fault

end Reading

end HopCodec
