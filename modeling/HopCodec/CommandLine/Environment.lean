/-
Defaults that the environment may set.
-/
import HopCodec.Settings
import HopCodec.Text.Digits

namespace HopCodec

/-- What the tool knows of its surroundings. -/
structure Environment where
  /-- The value of `LHE_QUALITY`. -/
  quality : Option String
  /-- The value of `LHE_NBWORKERS`. -/
  workers : Option String
  /-- The number of processor cores. -/
  cores : Nat
deriving DecidableEq, Repr

namespace Environment

def qualityVariable : String := "LHE_QUALITY"

def workersVariable : String := "LHE_NBWORKERS"

/-- The message about a variable whose value does not begin with a number. -/
def ignoredNote (variableName value : String) : String :=
  s!"Ignore environment variable setting {variableName}={value}: not a valid unsigned value \n"

/-- A default from the number that a variable's value begins with, held below a bound.  Any other
value is ignored with a message. -/
def numberFrom (variableName : String) (value : Option String) (bound fallback : Nat) :
    Nat × List String :=
  match value with
  | none => (fallback, [])
  | some text =>
      match Text.leadingNumber? (1 <<< 32) text.toList with
      | some (n, _) => (min n bound, [])
      | none => (fallback, [ignoredNote variableName text])

def defaultQuality (value : Option String) : UInt8 × List String :=
  let (n, notes) := numberFrom qualityVariable value Settings.qualityMax.toNat 50
  (UInt8.ofNat n, notes)

def defaultWorkers (value : Option String) : Nat × List String :=
  numberFrom workersVariable value Settings.workersMax 0

/-- The number of workers that a setting stands for. -/
def effectiveWorkers (cores workers : Nat) : Nat :=
  if workers = 0 then min (max cores 1) Settings.workersMax else workers

end Environment

end HopCodec
