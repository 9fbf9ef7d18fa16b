/-
Code tables on the machine.  A table files its codewords by length for the reader; codewords are
32-bit words, and every shift stays below that width.
-/
import HopCodec.Huffman.Symbols
import HopCodec.Machine.Cursor
import HopCodec.Machine.Packer
import HopCodec.Machine.Slot

namespace HopCodec.Machine

/-- A code table with its codewords filed by length. -/
structure Table where
  plain : CodeTable
  slots : Array Slot
  maxLength : Nat

/-- Refuse a list or a set of lengths that makes no table. -/
def refuseTable {α : Type} (fault : TableFault) : Run α :=
  refuse (.table fault)

namespace Table

def checkEntry (e : CodeEntry) : Run Unit :=
  match e.code with
  | none => .ok ()
  | some c => do
      if c.length = 0 ∨ maxCodeLength < c.length then refuseTable .lengthOutOfRange
      else if (← shiftRight 32 c.value c.length) ≠ 0 then refuseTable .codeTooWide

/-- Enter listed entries one by one.  `entered` holds those before. -/
def enter (entered : HopMap (Option CodeEntry)) :
    List (Hop × CodeEntry) → Run (HopMap (Option CodeEntry))
  | [] => .ok entered
  | (h, e) :: rest =>
      if (entered h).isSome then refuseTable .listedTwice
      else do
        checkEntry e
        enter (entered.set h (some e)) rest

/-- Whether the shorter of two codewords begins the longer one. -/
def overlaps (a b : Codeword) : Run Bool :=
  if a.length ≤ b.length then do
    return (← shiftRight 32 b.value (← sub b.length a.length)) = a.value
  else do
    return (← shiftRight 32 a.value (← sub a.length b.length)) = b.value

/-- Two codewords have to be told apart. -/
def separate (a b : Codeword) : Run Unit := do
  if ← overlaps a b then
    refuseTable (if a.length = b.length then .duplicateCode else .prefixCode)

/-- Check every codeword against those behind it. -/
def separateAll : List Codeword → Run Unit
  | [] => .ok ()
  | c :: rest => do
      rest.forM (separate c)
      separateAll rest

/-- The used hops with their codewords, in index order. -/
def filed (t : CodeTable) : List (Hop × Codeword) :=
  Hop.all.filterMap fun h => (t.code? h).map fun c => (h, c)

/-- Put a codeword behind the others of its length. -/
def file (slots : Array Slot) (e : Hop × Codeword) : Run (Array Slot) := do
  let slot ← fetch slots e.2.length
  store slots e.2.length (slot.push (e.2.value, e.1))

def ofEntries (list : List (Hop × CodeEntry)) : Run Table := do
  let entered ← enter (HopMap.const none) list
  let t : CodeTable := ⟨entered.map fun slot => slot.getD .unused⟩
  if t.codewords.isEmpty then refuseTable .noUsedSymbol
  separateAll t.codewords
  let slots ← (filed t).foldlM file (Array.replicate (maxCodeLength + 1) #[])
  return ⟨t, slots.map Slot.sorted, t.maxLength⟩

/-- Give out codewords in order.  `next` is the first free codeword of length `length`. -/
def assign (next length : Nat) : List (Hop × Nat) → Run (List (Hop × Codeword))
  | [] => .ok []
  | (h, l) :: rest => do
      let value ← shiftLeft 32 next (← sub l length)
      if (← shiftRight 32 value l) ≠ 0 then refuseTable .overSubscribed
      let next ← fit halfSize (value + 1)
      return (h, ⟨l, value⟩) :: (← assign next l rest)

/-- The canonical table of given lengths, with the counts it is built for. -/
def canonical (lengths counts : HopMap Nat) : Run Table := do
  let used ← lift ((CodeTable.lengthened lengths Hop.all).mapError Fault.table)
  let ranked := used.mergeSort CodeTable.canonicalLe
  let first := (ranked.head?.map Prod.snd).getD 0
  let coded ← assign 0 first ranked
  ofEntries (coded.map fun (h, c) => (h, ⟨some c, counts h⟩))

/-- Read nine code lengths and rebuild the canonical table. -/
def read : Scanner Table := do
  let lengths ← Scanner.list (Scanner.bits lengthBits) 9
  canonical (HopMap.ofFn fun h => lengths.getD h.index unusedLength) (HopMap.const 0)

/-- Extend the bits read so far until they are a codeword of `length` bits or more, trying `fuel`
lengths at most. -/
def extendSymbol (t : Table) (code length : Nat) : (fuel : Nat) → Scanner Hop
  | 0 => fun _ => refuseTable .noMatch
  | fuel + 1 => do
      let shifted ← shiftLeft 32 code 1
      let bit ← Scanner.bit
      let code := shifted ||| bit.toNat
      let slot ← fetch t.slots length
      match slot.place? code with
      | some i => return (← fetch slot i).2
      | none => t.extendSymbol code (length + 1) fuel

def readSymbol (t : Table) : Scanner Hop :=
  t.extendSymbol 0 1 t.maxLength

def readSymbols (t : Table) (n : Nat) : Scanner (Array Hop) := do
  lift (reserve n)
  let hops ← Scanner.list t.readSymbol n
  return hops.toArray

def writeLengths (t : Table) : Packer → Run Packer :=
  Packer.writeAll (fun length => Packer.writeBits length lengthBits) t.plain.lengths.toList

def writeSymbol (t : Table) (h : Hop) (p : Packer) : Run Packer :=
  match t.plain.code? h with
  | some c => p.writeBits c.value c.length
  | none => refuse (.argument .hopAbsent)

end Table

end HopCodec.Machine
