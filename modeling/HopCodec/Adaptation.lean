/-
The adaptive step.  A run of small hops narrows the step one unit per hop down to its floor; any
larger hop throws it back to its ceiling.
-/
import HopCodec.Hop

namespace HopCodec

/-- The size of the first rung and whether the last hop was small. -/
structure Adaptation where
  step : Nat
  lastSmall : Bool
deriving DecidableEq, Repr

namespace Adaptation

/-- The narrowest step a run of small hops reaches. -/
def stepFloor : Nat := 4

/-- The step after any hop that ends a run. -/
def stepCeiling : Nat := 10

/-- The state at the start of every pixel row. -/
def start : Adaptation :=
  ⟨7, false⟩

/-- The state after a hop. -/
def after (s : Adaptation) (h : Hop) : Adaptation :=
  if h.isSmall && s.lastSmall then ⟨max (s.step - 1) stepFloor, true⟩
  else ⟨stepCeiling, h.isSmall⟩

end Adaptation

end HopCodec
