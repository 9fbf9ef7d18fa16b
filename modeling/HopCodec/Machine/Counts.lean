/-
Counting hops and weighing codes on the machine.  The heap of the merge holds nodes by weight and
age; which node a node was merged into stands in one array, and the depth of a leaf is the length
of its climb through that array.
-/
import HopCodec.Machine.Table

namespace HopCodec.Machine

namespace Counts

def increment (m : Histogram) (h : Hop) : Run Histogram := do
  return m.set h (← add (m h) 1)

def ofHops (hops : List Hop) : Run Histogram :=
  hops.foldlM increment Histogram.empty

def merge (m n : Histogram) : Run Histogram :=
  Hop.all.foldlM (fun sum h => do return sum.set h (← add (sum h) (n h))) m

def total (m : Histogram) : Run Nat :=
  m.toList.foldlM add 0

def encodedBits (t : Table) (m : Histogram) : Run Nat :=
  (Table.filed t.plain).foldlM (fun bits e => do add bits (← mul e.2.length (m e.1))) 0

end Counts

/-- Nodes with their weights, the lightest first and of equal weights the oldest. -/
abbrev Heap := List (Nat × Nat)

/-- Which node each node was merged into, if it was. -/
abbrev Parents := Array (Option Nat)

namespace Heap

/-- Put a weighted node into its place. -/
def insert (e : Nat × Nat) : Heap → Heap
  | [] => [e]
  | f :: rest =>
      if f.1 < e.1 ∨ f.1 = e.1 ∧ f.2 ≤ e.2 then f :: insert e rest else e :: f :: rest

/-- Merge the two lightest nodes into a new one until one node is left, `fuel` times at most. -/
def merge (parents : Parents) : (fuel : Nat) → Heap → Run Parents
  | _, [] => .ok parents
  | _, [_] => .ok parents
  | 0, _ :: _ :: _ => .error (.trap .endlessLoop)
  | fuel + 1, a :: b :: rest => do
      let node := parents.size
      let merged ← store (parents.push none) a.2 (some node)
      let merged ← store merged b.2 (some node)
      let weight ← add a.1 b.1
      merge merged fuel (insert (weight, node) rest)

/-- The leaves of the counted hops, numbered in index order. -/
def ofUsed (m : Histogram) : Heap :=
  m.used.zipIdx.foldl (fun heap e => insert (m e.1, e.2) heap) []

end Heap

namespace Parents

/-- Climb from a node to the root, `fuel` nodes at most, and count the steps. -/
def climb (parents : Parents) : (fuel node depth : Nat) → Run Nat
  | 0, _, _ => .error (.trap .endlessLoop)
  | fuel + 1, node, depth => do
      match ← fetch parents node with
      | none => return depth
      | some above => parents.climb fuel above (← fit 256 (depth + 1))

end Parents

namespace Counts

/-- Optimal code lengths for the counted hops. -/
def codeLengths (m : Histogram) : Run (HopMap Nat) := do
  match m.used with
  | [] => refuseTable .noUsedSymbol
  | [h] => return (HopMap.const unusedLength).set h 1
  | used =>
      let parents ← Heap.merge (Array.replicate used.length none) used.length (Heap.ofUsed m)
      used.zipIdx.foldlM
        (fun lengths e => do return lengths.set e.1 (← parents.climb parents.size e.2 0))
        (HopMap.const unusedLength)

/-- The table that codes the counted hops in the fewest bits. -/
def codeTable (m : Histogram) : Run Table := do
  Table.canonical (← codeLengths m) m

end Counts

end HopCodec.Machine
