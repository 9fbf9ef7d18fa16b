/-
Prefix codes over the nine hops.  A table gives every used hop a codeword no other codeword
begins with; it can be listed entry by entry, or rebuilt from lengths alone because codewords are
assigned canonically.
-/
import HopCodec.Bits.Writer
import HopCodec.Huffman.Histogram

namespace HopCodec

/-- A bit pattern of a given length, read as a number. -/
structure Codeword where
  length : Nat
  value : Nat
deriving DecidableEq, Repr

namespace Codeword

def bits (c : Codeword) : List Bool :=
  (List.range c.length).map fun i => c.value.testBit (c.length - 1 - i)

/-- Whether the shorter of two codewords begins the longer one. -/
def overlaps (a b : Codeword) : Bool :=
  if a.length ≤ b.length then b.value >>> (b.length - a.length) = a.value
  else a.value >>> (a.length - b.length) = b.value

/-- Why two codewords cannot stand in one code. -/
def conflict? (a b : Codeword) : Option TableFault :=
  if a.overlaps b then some (if a.length = b.length then .duplicateCode else .prefixCode)
  else none

/-- The first conflict among the codewords of a list. -/
def firstConflict? : List Codeword → Option TableFault
  | [] => none
  | c :: rest =>
      match rest.findSome? c.conflict? with
      | some fault => some fault
      | none => firstConflict? rest

end Codeword

/-- The codeword of a hop, if it has one, and how often the hop occurs. -/
structure CodeEntry where
  code : Option Codeword
  count : Nat
deriving DecidableEq, Repr

/-- The length that marks a hop without a codeword. -/
def unusedLength : Nat := 15

/-- Bits of a transmitted length. -/
def lengthBits : Nat := 4

/-- The longest codeword a table may hold. -/
def maxCodeLength : Nat := 14

namespace CodeEntry

def unused : CodeEntry :=
  ⟨none, 0⟩

/-- An entry from its listed fields. -/
def ofFields (length value count : Nat) : CodeEntry :=
  ⟨if length = unusedLength then none else some ⟨length, value⟩, count⟩

def length (e : CodeEntry) : Nat :=
  e.code.elim unusedLength Codeword.length

/-- Why an entry cannot stand in any table. -/
def fault? (e : CodeEntry) : Option TableFault :=
  match e.code with
  | none => none
  | some c =>
      if c.length = 0 ∨ maxCodeLength < c.length then some .lengthOutOfRange
      else if 1 <<< c.length ≤ c.value then some .codeTooWide
      else none

end CodeEntry

/-- One entry per hop. -/
structure CodeTable where
  entries : HopMap CodeEntry
deriving DecidableEq, Repr

namespace CodeTable

def code? (t : CodeTable) (h : Hop) : Option Codeword :=
  (t.entries h).code

/-- The codewords in hop index order. -/
def codewords (t : CodeTable) : List Codeword :=
  Hop.all.filterMap t.code?

def lengths (t : CodeTable) : HopMap Nat :=
  t.entries.map CodeEntry.length

def maxLength (t : CodeTable) : Nat :=
  (t.codewords.map Codeword.length).foldl max 0

/-- Enter listed entries one by one.  `slots` holds those entered before. -/
def enter (slots : HopMap (Option CodeEntry)) :
    List (Hop × CodeEntry) → Except TableFault (HopMap (Option CodeEntry))
  | [] => .ok slots
  | (h, e) :: rest =>
      if (slots h).isSome then .error .listedTwice
      else
        match e.fault? with
        | some fault => .error fault
        | none => enter (slots.set h (some e)) rest

/-- The table of a list of entries.  Hops that are not listed are unused. -/
def ofEntries (list : List (Hop × CodeEntry)) : Except TableFault CodeTable := do
  let slots ← enter (HopMap.const none) list
  let t : CodeTable := ⟨slots.map fun slot => slot.getD .unused⟩
  if t.codewords.isEmpty then throw .noUsedSymbol
  match Codeword.firstConflict? t.codewords with
  | some fault => throw fault
  | none => return t

/-- Each hop that has a length, with that length, in index order. -/
def lengthened (lengths : HopMap Nat) : List Hop → Except TableFault (List (Hop × Nat))
  | [] => .ok []
  | h :: rest =>
      if lengths h = unusedLength then lengthened lengths rest
      else if lengths h = 0 ∨ maxCodeLength < lengths h then .error .lengthOutOfRange
      else do return (h, lengths h) :: (← lengthened lengths rest)

/-- Shorter codewords come first; of equal lengths, the hop with priority. -/
def canonicalLe (a b : Hop × Nat) : Bool :=
  a.2 < b.2 || (a.2 = b.2 && a.1.rank ≤ b.1.rank)

/-- Give out codewords in order.  `next` is the first free codeword of length `length`, read as a
number. -/
def assign (next length : Nat) : List (Hop × Nat) → Except TableFault (List (Hop × Codeword))
  | [] => .ok []
  | (h, l) :: rest =>
      let value := next <<< (l - length)
      if 1 <<< l ≤ value then .error .overSubscribed
      else do return (h, ⟨l, value⟩) :: (← assign (value + 1) l rest)

/-- The canonical table of given lengths, with the counts it is built for. -/
def canonical (lengths counts : HopMap Nat) : Except TableFault CodeTable := do
  let used ← lengthened lengths Hop.all
  let coded ← assign 0 0 (used.mergeSort canonicalLe)
  ofEntries (coded.map fun (h, c) => (h, ⟨some c, counts h⟩))

/-- The canonical table of transmitted lengths. -/
def ofLengths (lengths : HopMap Nat) : Except TableFault CodeTable :=
  canonical lengths (HopMap.const 0)

/-- The bits that coding every counted hop takes. -/
def encodedBits (t : CodeTable) (m : Histogram) : Nat :=
  Hop.all.foldl (fun bits h => bits + ((t.code? h).map fun c => c.length * m h).getD 0) 0

end CodeTable

end HopCodec
