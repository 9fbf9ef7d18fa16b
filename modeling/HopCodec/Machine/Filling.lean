/-
Filling the table of nearest hops on the machine.  The ladder of every ratio, step and predicted
value is cut out of the rungs and swept once; its answers make one column of a sheet, a row for
each target.
-/
import HopCodec.Machine.Scan
import HopCodec.Machine.Sweep

namespace HopCodec.Machine

namespace Ladders

/-- The ladder around a predicted value. -/
def ladder (rungs : Bytes) (ratio step : Nat) (predicted : UInt8) : Run Bytes := do
  let start ← add (← mul predicted.toNat ladderSpan) (← mul (← sheet ratio step) 9)
  slice rungs start (← add start 9)

/-- The bytes of one sheet, and of the sheets of one ratio. -/
def sheetSize : Nat := 65536

def ratioSize : Nat := 1245184

/-- Store one answer of a sweep in the column of a predicted value. -/
def storeCall (start predicted : Nat) (nearest : Bytes) (call : Nat × Hop) : Run Bytes := do
  let row ← mul call.1 256
  store nearest (← add start (← add row predicted)) (UInt8.ofNat call.2.index)

/-- Fill the column of one predicted value in the `s`-th sheet of the `r`-th ratio. -/
def fillColumn (rungs : Bytes) (r s predicted : Nat) (nearest : Bytes) : Run Bytes := do
  let calls ← fillBestHops
    (← ladder rungs (← add Predictor.ratioMin r) (← add 1 s) (UInt8.ofNat predicted))
  let start ← add (← mul r ratioSize) (← mul s sheetSize)
  calls.foldlM (storeCall start predicted) nearest

/-- Fill the table of nearest hops. -/
def fill (rungs : Bytes) : Run Bytes :=
  loop (fun r => loop (fun s => loop (fun predicted => fillColumn rungs r s predicted) 256)
    stepCount) ratioCount (Array.replicate (ratioCount * stepCount * 256 * 256) 0)

end Ladders

end HopCodec.Machine
