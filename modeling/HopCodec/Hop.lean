/-
The nine hops of the logarithmic alphabet and tables with one value per hop.
-/

namespace HopCodec

universe u v

/-- A signed jump from the predicted value, from the largest downward one to the largest upward
one. -/
inductive Hop
  | neg4 | neg3 | neg2 | neg1 | null | pos1 | pos2 | pos3 | pos4
deriving DecidableEq, Repr, Inhabited

namespace Hop

/-- Hops in index order. -/
def all : List Hop :=
  [neg4, neg3, neg2, neg1, null, pos1, pos2, pos3, pos4]

/-- Hops in the order in which ties are settled: small jumps first, upward before downward. -/
def priority : List Hop :=
  [null, pos1, neg1, pos2, neg2, pos3, neg3, pos4, neg4]

def index : Hop → Fin 9
  | neg4 => 0
  | neg3 => 1
  | neg2 => 2
  | neg1 => 3
  | null => 4
  | pos1 => 5
  | pos2 => 6
  | pos3 => 7
  | pos4 => 8

def ofIndex : Fin 9 → Hop
  | 0 => neg4
  | 1 => neg3
  | 2 => neg2
  | 3 => neg1
  | 4 => null
  | 5 => pos1
  | 6 => pos2
  | 7 => pos3
  | 8 => pos4

@[simp] theorem ofIndex_index (h : Hop) : ofIndex h.index = h := by
  cases h <;> rfl

@[simp] theorem index_ofIndex (i : Fin 9) : (ofIndex i).index = i := by
  revert i
  decide

theorem index_injective {g h : Hop} (heq : g.index = h.index) : g = h := by
  rw [← ofIndex_index g, heq, ofIndex_index]

def ofIndex? (i : Nat) : Option Hop :=
  if h : i < 9 then some (ofIndex ⟨i, h⟩) else none

/-- The jump counted in rungs, whatever its direction. -/
def magnitude (h : Hop) : Nat :=
  max h.index.val 4 - min h.index.val 4

/-- The position of a hop in `priority`. -/
def rank : Hop → Nat
  | null => 0
  | pos1 => 1
  | neg1 => 2
  | pos2 => 3
  | neg2 => 4
  | pos3 => 5
  | neg3 => 6
  | pos4 => 7
  | neg4 => 8

theorem rank_eq_idxOf (h : Hop) : h.rank = priority.idxOf h := by
  cases h <;> rfl

theorem rank_injective {g h : Hop} (heq : g.rank = h.rank) : g = h := by
  cases g <;> cases h <;> first | rfl | cases heq

/-- A small hop stays within one rung of the prediction. -/
def isSmall (h : Hop) : Bool :=
  h.magnitude ≤ 1

theorem mem_all (h : Hop) : h ∈ all := by
  cases h <;> decide

theorem mem_priority (h : Hop) : h ∈ priority := by
  cases h <;> decide

end Hop

/-- One value per hop, held in index order. -/
structure HopMap (α : Type u) where
  values : Vector α 9
deriving DecidableEq, Repr

namespace HopMap

variable {α : Type u} {β : Type v}

def get (m : HopMap α) (h : Hop) : α :=
  m.values[h.index]

instance : CoeFun (HopMap α) (fun _ => Hop → α) :=
  ⟨get⟩

def ofFn (f : Hop → α) : HopMap α :=
  ⟨Vector.ofFn fun i => f (Hop.ofIndex i)⟩

@[simp] theorem get_ofFn (f : Hop → α) (h : Hop) : (ofFn f).get h = f h := by
  simp [ofFn, get]

theorem ext {m n : HopMap α} (h : ∀ hop, m.get hop = n.get hop) : m = n := by
  cases m with
  | mk mv =>
      cases n with
      | mk nv =>
          congr 1
          ext i hi
          simpa [get] using h (Hop.ofIndex ⟨i, hi⟩)

/-- The same value for every hop. -/
def const (a : α) : HopMap α :=
  ofFn fun _ => a

@[simp] theorem get_const (a : α) (h : Hop) : (const a).get h = a :=
  get_ofFn _ h

/-- Replace the value of one hop. -/
def set (m : HopMap α) (h : Hop) (a : α) : HopMap α :=
  ⟨m.values.set h.index a⟩

theorem get_set (m : HopMap α) (g h : Hop) (a : α) :
    (m.set g a).get h = if g = h then a else m.get h := by
  by_cases heq : g = h
  · subst heq
    simp [set, get]
  · have hne : g.index.val ≠ h.index.val := fun hval =>
      heq (Hop.index_injective (Fin.ext hval))
    simp [set, get, heq, Vector.getElem_set_ne, hne]

def map (f : α → β) (m : HopMap α) : HopMap β :=
  ofFn fun h => f (m.get h)

/-- The values in index order. -/
def toList (m : HopMap α) : List α :=
  Hop.all.map m.get

end HopMap

end HopCodec
