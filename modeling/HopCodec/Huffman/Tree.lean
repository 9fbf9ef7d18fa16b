/-
Optimal code lengths.  Trees over the used hops are merged two lightest at a time; among equal
weights the older tree goes first.  The depth of a hop in the last tree is its code length.
-/
import HopCodec.Huffman.CodeTable

namespace HopCodec

inductive HopTree
  | leaf (hop : Hop) (count : Nat)
  | node (left right : HopTree)
deriving DecidableEq, Repr

namespace HopTree

def weight : HopTree → Nat
  | leaf _ count => count
  | node left right => left.weight + right.weight

/-- Insert a tree behind all trees that are not heavier. -/
def insert (t : HopTree) : List HopTree → List HopTree
  | [] => [t]
  | s :: rest => if s.weight ≤ t.weight then s :: insert t rest else t :: s :: rest

@[simp] theorem length_insert (t : HopTree) (forest : List HopTree) :
    (insert t forest).length = forest.length + 1 := by
  induction forest with
  | nil => rfl
  | cons s rest ih =>
      unfold insert
      split <;> simp [ih]

/-- Merge a forest, lightest first, into one tree. -/
def merge? : List HopTree → Option HopTree
  | [] => none
  | [t] => some t
  | s :: t :: rest => merge? (insert (node s t) rest)
termination_by forest => forest.length

/-- Every hop of the tree with its depth below a node at `depth`. -/
def depths (depth : Nat) : HopTree → List (Hop × Nat)
  | leaf hop _ => [(hop, depth)]
  | node left right => left.depths (depth + 1) ++ right.depths (depth + 1)

/-- The forest of the used hops: one leaf each, lightest first. -/
def forest (m : Histogram) : List HopTree :=
  m.used.foldl (fun trees h => insert (leaf h (m h)) trees) []

end HopTree

namespace Histogram

/-- Optimal code lengths for the counted hops.  A lone used hop gets one bit. -/
def codeLengths? (m : Histogram) : Option (HopMap Nat) :=
  (HopTree.merge? (HopTree.forest m)).map fun tree =>
    let base := match tree with
      | .leaf _ _ => 1
      | .node _ _ => 0
    (tree.depths base).foldl (fun lengths (h, depth) => lengths.set h depth)
      (HopMap.const unusedLength)

/-- The table that codes the counted hops in the fewest bits. -/
def codeTable (m : Histogram) : Except TableFault CodeTable :=
  match m.codeLengths? with
  | none => .error .noUsedSymbol
  | some lengths => CodeTable.canonical lengths m

end Histogram

end HopCodec
