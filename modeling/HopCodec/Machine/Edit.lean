/-
Single pixels of a canvas, and writes to a canvas one after another.
-/
import HopCodec.Machine.Canvas

namespace HopCodec.Machine

namespace Canvas

def get (c : Canvas) (x y : Nat) : Run UInt8 := do
  fetch c.data (← add (← mul y c.stride) x)

def set (c : Canvas) (x y : Nat) (value : UInt8) : Run Canvas := do
  return { c with data := ← store c.data (← add (← mul y c.stride) x) value }

end Canvas

/-- A write to a canvas: of a single pixel, or of a block from a source with a stride of its own. -/
inductive Edit
  | set (x y : Nat) (value : UInt8)
  | blit (x y width height : Nat) (src : Bytes) (srcStride : Nat)

def Edit.run (c : Canvas) : Edit → Run Canvas
  | .set x y value => c.set x y value
  | .blit x y width height src srcStride => c.blit x y width height src srcStride

/-- Write to a canvas one edit after another. -/
def Canvas.edit (c : Canvas) (edits : List Edit) : Run Canvas :=
  edits.foldlM Edit.run c

end HopCodec.Machine
