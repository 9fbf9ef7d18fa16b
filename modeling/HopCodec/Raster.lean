/-
Strided pixel buffers.  A window of `width × height` pixels lies in a byte buffer with its rows
`stride` bytes apart; `gather` lists its pixels row by row, and `scatter` puts such a list back
without touching any other byte.
-/
import HopCodec.Fault

namespace HopCodec

/-- Raw bytes: pixels, files and payloads. -/
abbrev Bytes := Array UInt8

/-- Buffers of this size or more cannot be had. -/
def allocationLimit : Nat := 1 <<< 47

/-- Ask for a buffer of `size` bytes. -/
def reserve (size : Nat) : Except Fault Unit :=
  if size < allocationLimit then .ok () else .error (.allocation size)

/-- A window on a strided byte buffer. -/
structure Window where
  width : Nat
  height : Nat
  stride : Nat
deriving DecidableEq, Repr

namespace Window

/-- A window whose rows follow one another without a gap. -/
def packed (width height : Nat) : Window :=
  ⟨width, height, width⟩

def area (w : Window) : Nat :=
  w.width * w.height

/-- The bytes from the first pixel to the last one, both included. -/
def extent (w : Window) : Nat :=
  (w.height - 1) * w.stride + w.width

/-- The place of pixel `(x, y)`, counted from the first pixel. -/
def index (w : Window) (x y : Nat) : Nat :=
  y * w.stride + x

/-- The place of the `i`-th pixel in raster order. -/
def place (w : Window) (i : Nat) : Nat :=
  w.index (i % w.width) (i / w.width)

/-- Every pixel of the window lies in a buffer of `len` bytes and in a row of its own. -/
def Fits (w : Window) (len : Nat) : Prop :=
  w.width ≤ w.stride ∧ w.extent ≤ len

/-- The pixels of the window, row by row.  The first one is at `offset`. -/
def gather (w : Window) (data : Bytes) (offset : Nat) : Bytes :=
  Array.ofFn fun i : Fin w.area => data.getD (offset + w.place i) 0

@[simp] theorem size_gather (w : Window) (data : Bytes) (offset : Nat) :
    (w.gather data offset).size = w.area := by
  simp [gather]

/-- Write a row-by-row list of pixels into the window at `offset`. -/
def scatter (w : Window) (data : Bytes) (offset : Nat) (pixels : Bytes) : Bytes :=
  w.area.fold
    (fun i _ data => data.setIfInBounds (offset + w.place i) (pixels.getD i 0)) data

@[simp] theorem size_scatter (w : Window) (data : Bytes) (offset : Nat) (pixels : Bytes) :
    (w.scatter data offset pixels).size = data.size := by
  unfold scatter
  induction w.area with
  | zero => rfl
  | succ count ih => rw [Nat.fold_succ, Array.size_setIfInBounds, ih]

/-- A block can be coded in a buffer only if it is not empty, its rows do not overlap and the
buffer holds all of them. -/
def check (w : Window) (len : Nat) : Except Fault Unit :=
  if w.width = 0 ∨ w.height = 0 then .error (.argument .emptyBlock)
  else if w.stride < w.width then .error (.argument .narrowStride)
  else if len < w.extent then .error (.argument .shortPixelBuffer)
  else .ok ()

theorem check_eq_ok_iff (w : Window) (len : Nat) :
    w.check len = .ok () ↔ w.width ≠ 0 ∧ w.height ≠ 0 ∧ w.Fits len := by
  unfold check Fits
  by_cases hempty : w.width = 0 ∨ w.height = 0
  · simp only [hempty, if_true, reduceCtorEq, false_iff, not_and]
    intro hw hh
    exact absurd hempty (by simp [hw, hh])
  · by_cases hstride : w.stride < w.width
    · simp [hempty, hstride, Nat.not_le.mpr hstride]
    · by_cases hlen : len < w.extent
      · simp [hempty, hstride, hlen, Nat.not_le.mpr hlen]
      · simp only [hempty, hstride, hlen, if_false, true_iff]
        simp only [not_or] at hempty
        exact ⟨hempty.1, hempty.2, Nat.not_lt.mp hstride, Nat.not_lt.mp hlen⟩

end Window

end HopCodec
