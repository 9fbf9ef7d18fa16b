/-
Functions on an initial range of numbers whose values are worked out at most once, when they are
first asked for.
-/

namespace HopCodec

universe u

/-- A function on an initial range of numbers whose values are worked out at most once. -/
structure Memo (α : Type u) where
  cells : Array (Thunk α)

namespace Memo

variable {α : Type u}

def tabulate (n : Nat) (f : Nat → α) : Memo α :=
  ⟨Array.ofFn fun i : Fin n => Thunk.mk fun _ => f i⟩

/-- The remembered value, or `fallback` outside the range. -/
def get (m : Memo α) (k : Nat) (fallback : Nat → α) : α :=
  match m.cells[k]? with
  | some cell => cell.get
  | none => fallback k

@[simp] theorem get_tabulate (n : Nat) (f : Nat → α) (k : Nat) :
    (tabulate n f).get k f = f k := by
  unfold get tabulate
  by_cases h : k < n
  · simp [h, Thunk.get]
  · simp [h]

end Memo

end HopCodec
