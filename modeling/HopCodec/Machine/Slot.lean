/-
Slots of codewords on the machine.  The codewords of one length are put into rising order once, when
their table is made, and are found by halving from then on.
-/
import HopCodec.Hop

namespace HopCodec.Machine

/-- The codewords of one length, each with its hop. -/
abbrev Slot := Array (Nat × Hop)

namespace Slot

def sorted (slot : Slot) : Slot :=
  (slot.toList.mergeSort fun a b => a.1 ≤ b.1).toArray

/-- Halve the stretch of `size` places from `start` on until a single one is left.  Of the two
halves the upper one is kept, unless it begins with a codeword above `code`. -/
def narrow (slot : Slot) (code start size : Nat) (hpos : 0 < size)
    (hstop : start + size ≤ slot.size) : Fin slot.size :=
  if hmany : 1 < size then
    let half := size / 2
    if code < slot[start + half].1 then
      narrow slot code start (size - half) (by omega) (by omega)
    else narrow slot code (start + half) (size - half) (by omega) (by omega)
  else ⟨start, by omega⟩
termination_by size

/-- The place of a codeword.  The slot has to be in rising order. -/
def place? (slot : Slot) (code : Nat) : Option Nat :=
  if hpos : 0 < slot.size then
    let i := slot.narrow code 0 slot.size hpos (Nat.le_of_eq (Nat.zero_add _))
    if slot[i].1 = code then some i else none
  else none

end Slot

end HopCodec.Machine
