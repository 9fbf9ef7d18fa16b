/-
Sizes written as `WIDTHxHEIGHT`.
-/
import HopCodec.Text.Digits

namespace HopCodec

/-- Why a text is not a size, or not the size of a block grid. -/
inductive SizeFault
  | malformed (text : String)
  | zero (text : String)
  | tooManyBlocks (count : Nat)
deriving DecidableEq, Repr

def SizeFault.message : SizeFault → String
  | malformed text => s!"expected WIDTHxHEIGHT, got '{text}'"
  | zero text => s!"dimensions must be non-zero, got '{text}'"
  | tooManyBlocks count => s!"at most 255 blocks per axis, got {count}"

namespace Size

/-- Two numbers with an `x` of either case between them and nothing around them. -/
def pair? (text : List Char) : Option (Nat × Nat) := do
  let (width, rest) ← Text.leadingNumber? (1 <<< 32) text
  match rest with
  | [] => none
  | c :: rest =>
      if c = 'x' || c = 'X' then
        let (height, rest) ← Text.leadingNumber? (1 <<< 32) rest
        if rest.isEmpty then some (width, height) else none
      else none

/-- A size whose sides are positive and below `2 ^ 32`. -/
def parse (text : String) : Except SizeFault (Nat × Nat) :=
  match pair? text.toList with
  | none => .error (.malformed text)
  | some (width, height) =>
      if width = 0 ∨ height = 0 then .error (.zero text) else .ok (width, height)

/-- The number of blocks along an axis. -/
def blockCount (n : Nat) : Except SizeFault UInt8 :=
  if n ≤ 255 then .ok (UInt8.ofNat n) else .error (.tooManyBlocks n)

/-- A block grid: a size whose sides fit a byte. -/
def parseBlocks (text : String) : Except SizeFault (UInt8 × UInt8) := do
  let (width, height) ← parse text
  return (← blockCount width, ← blockCount height)

end Size

end HopCodec
