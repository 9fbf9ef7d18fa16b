/-
The operations of a machine with fixed words.  Each of them traps where it has no result: beyond
the word, below zero, behind the end of a buffer, or where an assertion fails.  A program over
these operations either ends with a value, ends with a fault, or traps.
-/
import HopCodec.Raster
import HopCodec.Single

namespace HopCodec.Machine

universe u v

/-- Why an operation has no result. -/
inductive Trap
  | overflow
  | underflow
  | zeroDivisor
  | wideShift
  | outOfBounds
  | failedAssertion
  | emptyClamp
  | endlessLoop
deriving DecidableEq, Repr

/-- How a program ends without a value. -/
inductive Stop
  | trap (trap : Trap)
  | fault (fault : Fault)
deriving DecidableEq, Repr

/-- A program over checked operations. -/
abbrev Run := Except Stop

variable {α : Type u} {σ : Type v}

/-- A program that cannot trap. -/
def lift (x : Except Fault α) : Run α :=
  x.mapError Stop.fault

def refuse (fault : Fault) : Run α :=
  .error (.fault fault)

/-- The numbers below this one fit a machine word. -/
def wordSize : Nat := 0x10000000000000000

/-- The numbers below this one fit half a machine word. -/
def halfSize : Nat := 0x100000000

/-- A result that has to stay below `limit`. -/
def fit (limit n : Nat) : Run Nat :=
  if n < limit then .ok n else .error (.trap .overflow)

def add (a b : Nat) : Run Nat :=
  fit wordSize (a + b)

def mul (a b : Nat) : Run Nat :=
  fit wordSize (a * b)

def sub (a b : Nat) : Run Nat :=
  if b ≤ a then .ok (a - b) else .error (.trap .underflow)

def div (a b : Nat) : Run Nat :=
  if b = 0 then .error (.trap .zeroDivisor) else .ok (a / b)

def rem (a b : Nat) : Run Nat :=
  if b = 0 then .error (.trap .zeroDivisor) else .ok (a % b)

/-- Shift to the left in a word of `width` bits.  What leaves the word is lost. -/
def shiftLeft (width a n : Nat) : Run Nat :=
  if n < width then .ok ((a <<< n) % (1 <<< width)) else .error (.trap .wideShift)

/-- Shift to the right in a word of `width` bits. -/
def shiftRight (width a n : Nat) : Run Nat :=
  if n < width then .ok (a >>> n) else .error (.trap .wideShift)

/-- An assertion of the program. -/
def ensure (p : Prop) [Decidable p] : Run Unit :=
  if p then .ok () else .error (.trap .failedAssertion)

/-- Move a value between two bounds, which have to be in order. -/
def clamp (x lo hi : Float32) : Run Float32 :=
  if lo ≤ hi then .ok (Single.clamp x lo hi) else .error (.trap .emptyClamp)

def fetch (a : Array α) (i : Nat) : Run α :=
  match a[i]? with
  | some x => .ok x
  | none => .error (.trap .outOfBounds)

def store (a : Array α) (i : Nat) (x : α) : Run (Array α) :=
  if i < a.size then .ok (a.setIfInBounds i x) else .error (.trap .outOfBounds)

/-- The part `[start, stop)` of a buffer. -/
def slice (a : Array α) (start stop : Nat) : Run (Array α) :=
  if start ≤ stop ∧ stop ≤ a.size then .ok (a.extract start stop)
  else .error (.trap .outOfBounds)

/-- A zeroed buffer. -/
def allocate (size : Nat) : Run Bytes := do
  lift (reserve size)
  return Array.replicate size 0

/-- Run a step for `0, 1, …, n - 1`. -/
def loop (step : Nat → σ → Run σ) : (n : Nat) → σ → Run σ
  | 0, s => .ok s
  | n + 1, s => do step n (← loop step n s)

end HopCodec.Machine
