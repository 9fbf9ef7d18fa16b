/-
How often each hop occurs.
-/
import HopCodec.Hop

namespace HopCodec

abbrev Histogram := HopMap Nat

namespace Histogram

def empty : Histogram :=
  HopMap.const 0

/-- Count one more occurrence of a hop. -/
def add (m : Histogram) (h : Hop) : Histogram :=
  m.set h (m h + 1)

def addAll (m : Histogram) (hops : List Hop) : Histogram :=
  hops.foldl add m

def ofList (hops : List Hop) : Histogram :=
  addAll empty hops

def merge (m n : Histogram) : Histogram :=
  HopMap.ofFn fun h => m h + n h

def total (m : Histogram) : Nat :=
  m.toList.foldl (· + ·) 0

/-- The hops that occur, in index order. -/
def used (m : Histogram) : List Hop :=
  Hop.all.filter fun h => 0 < m h

theorem get_add (m : Histogram) (g h : Hop) :
    (m.add g).get h = m.get h + if g = h then 1 else 0 := by
  unfold add
  rw [HopMap.get_set]
  split
  · next heq => rw [heq]
  · rfl

theorem get_addAll (m : Histogram) (hops : List Hop) (h : Hop) :
    (m.addAll hops).get h = m.get h + hops.count h := by
  induction hops generalizing m with
  | nil => rfl
  | cons g hops ih =>
      rw [addAll, List.foldl_cons]
      change ((m.add g).addAll hops).get h = _
      rw [ih, get_add, List.count_cons]
      by_cases heq : g = h
      · simp [heq]
        omega
      · simp [heq]

@[simp] theorem get_ofList (hops : List Hop) (h : Hop) : (ofList hops).get h = hops.count h := by
  rw [ofList, get_addAll]
  simp [empty]

@[simp] theorem get_merge (m n : Histogram) (h : Hop) : (m.merge n).get h = m.get h + n.get h := by
  simp [merge]

end Histogram

end HopCodec
