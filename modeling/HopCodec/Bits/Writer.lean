/-
Writing a list of bits into bytes, most significant bit first.  A writer holds the whole bytes
written so far and the bits of the byte under way.
-/
import HopCodec.Bits.Reader

namespace HopCodec

/-- Whole bytes, then `fill` bits whose value is `pending`. -/
structure BitWriter where
  bytes : Bytes
  pending : Nat
  fill : Nat
deriving DecidableEq, Repr

namespace BitWriter

def empty : BitWriter :=
  ⟨#[], 0, 0⟩

def bitLength (w : BitWriter) : Nat :=
  8 * w.bytes.size + w.fill

def writeBit (w : BitWriter) (bit : Bool) : BitWriter :=
  let value := 2 * w.pending + bit.toNat
  if w.fill < 7 then ⟨w.bytes, value, w.fill + 1⟩
  else ⟨w.bytes.push (UInt8.ofNat value), 0, 0⟩

/-- Write the low `n` bits of a number. -/
def writeBits (w : BitWriter) (value n : Nat) : BitWriter :=
  n.fold (fun i _ w => w.writeBit (value.testBit (n - 1 - i))) w

def writeByte (w : BitWriter) (byte : UInt8) : BitWriter :=
  w.writeBits byte.toNat 8

/-- Write four bytes, the least significant one first. -/
def writeWord (w : BitWriter) (word : UInt32) : BitWriter :=
  (((w.writeByte word.toUInt8).writeByte (word >>> 8).toUInt8).writeByte
    (word >>> 16).toUInt8).writeByte (word >>> 24).toUInt8

/-- All bytes, the last one filled up with zero bits. -/
def finish (w : BitWriter) : Bytes :=
  if w.fill = 0 then w.bytes
  else w.bytes.push (UInt8.ofNat (w.pending <<< (8 - w.fill)))

/-- The bits written, in order. -/
def bits (w : BitWriter) : List Bool :=
  ((List.range (8 * w.bytes.size)).map (bitAt w.bytes)) ++
    (List.range w.fill).map fun i => w.pending.testBit (w.fill - 1 - i)

theorem length_bits (w : BitWriter) : w.bits.length = w.bitLength := by
  simp [bits, bitLength]

end BitWriter

end HopCodec
