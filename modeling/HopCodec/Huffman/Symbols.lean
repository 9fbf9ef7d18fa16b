/-
Hop symbols and code tables in the bit stream.
-/
import HopCodec.Huffman.Tree

namespace HopCodec

namespace CodeTable

def writeLengths (t : CodeTable) (w : BitWriter) : BitWriter :=
  t.lengths.toList.foldl (fun w length => w.writeBits length lengthBits) w

/-- Read nine code lengths and rebuild the canonical table. -/
def read : Reading CodeTable := do
  let lengths ← Reading.list (Reading.bits lengthBits) 9
  Reading.lift ((ofLengths (HopMap.ofFn fun h => lengths.getD h.index unusedLength)).mapError
    Fault.table)

def writeSymbol (t : CodeTable) (w : BitWriter) (h : Hop) : Except Fault BitWriter :=
  match t.code? h with
  | some c => .ok (w.writeBits c.value c.length)
  | none => .error (.argument .hopAbsent)

def writeSymbols (t : CodeTable) (w : BitWriter) (hops : List Hop) : Except Fault BitWriter :=
  hops.foldlM t.writeSymbol w

/-- The hop that a codeword stands for. -/
def symbol? (t : CodeTable) (c : Codeword) : Option Hop :=
  Hop.all.find? fun h => t.code? h = some c

/-- Extend the bits read so far, `fuel` more at most, until they are a codeword. -/
def extendSymbol (t : CodeTable) (c : Codeword) : (fuel : Nat) → Reading Hop
  | 0 => Reading.refuse (.table .noMatch)
  | fuel + 1 => do
      let bit ← Reading.bit
      let c : Codeword := ⟨c.length + 1, 2 * c.value + bit.toNat⟩
      match t.symbol? c with
      | some h => return h
      | none => t.extendSymbol c fuel

/-- Read bits until they are a codeword. -/
def readSymbol (t : CodeTable) : Reading Hop :=
  t.extendSymbol ⟨0, 0⟩ t.maxLength

/-- Read up to `n` symbols behind those in `done`.  A failure keeps the symbols before it. -/
def readSymbolsFrom (t : CodeTable) (done : Array Hop) :
    Nat → BitReader → (Array Hop × Option Fault) × BitReader
  | 0, r => ((done, none), r)
  | n + 1, r =>
      match t.readSymbol.run r with
      | .ok h r => t.readSymbolsFrom (done.push h) n r
      | .error fault r => ((done, some fault), r)

/-- Read `n` symbols into a buffer reserved beforehand, keeping those before a failure. -/
def readReserved (t : CodeTable) (n : Nat) (r : BitReader) :
    (Array Hop × Option Fault) × BitReader :=
  match reserve n with
  | .error fault => ((#[], some fault), r)
  | .ok _ => t.readSymbolsFrom #[] n r

def readSymbols (t : CodeTable) (n : Nat) : Reading (Array Hop) := fun r =>
  match t.readReserved n r with
  | ((hops, none), r) => .ok hops r
  | ((_, some fault), r) => .error fault r

end CodeTable

end HopCodec
