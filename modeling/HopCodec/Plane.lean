/-
Pixel planes.  A plane owns a strided buffer; what a reader of the plane sees is its `width` by
`height` pixels, and the bytes between and behind them are nobody's business.
-/
import HopCodec.Raster

namespace HopCodec

/-- A plane of pixels in a strided buffer that holds all of them. -/
structure Plane where
  width : Nat
  height : Nat
  stride : Nat
  data : Bytes
  width_le_stride : width ≤ stride
  holds : height = 0 ∨ (height - 1) * stride + width ≤ data.size
deriving DecidableEq

namespace Plane

/-- A packed plane of one value, if there is room for it. -/
def filled? (width height : Nat) (value : UInt8) : Except Fault Plane := do
  reserve (width * height)
  return ⟨width, height, width, Array.replicate (width * height) value, Nat.le_refl _, by
    cases height with
    | zero => exact .inl rfl
    | succ h => exact .inr (by simp [Nat.mul_comm, Nat.mul_add])⟩

/-- A packed plane of zeros. -/
def new? (width height : Nat) : Except Fault Plane :=
  filled? width height 0

/-- A plane over a given buffer. -/
def ofBytes? (width height stride : Nat) (data : Bytes) : Except Fault Plane :=
  if hstride : stride < width then .error (.argument .planeStride)
  else if hdata : height > 0 ∧ data.size < (height - 1) * stride + width then
    .error (.argument .planeBuffer)
  else .ok ⟨width, height, stride, data, Nat.not_lt.mp hstride, by omega⟩

/-- The visible pixels as a window on the buffer. -/
def window (p : Plane) : Window :=
  ⟨p.width, p.height, p.stride⟩

/-- Replace the buffer by one that is as long. -/
def withData (p : Plane) (data : Bytes) (h : data.size = p.data.size) : Plane :=
  { p with data := data, holds := by rw [h]; exact p.holds }

def get (p : Plane) (x y : Nat) : UInt8 :=
  p.data.getD (p.window.index x y) 0

def set (p : Plane) (x y : Nat) (value : UInt8) : Plane :=
  p.withData (p.data.setIfInBounds (p.window.index x y) value) (by simp)

def fill (p : Plane) (value : UInt8) : Plane :=
  p.withData (Array.replicate p.data.size value) (by simp)

def row (p : Plane) (y : Nat) : Bytes :=
  (Window.packed p.width 1).gather p.data (p.window.index 0 y)

/-- The buffer from a pixel on. -/
def region (p : Plane) (x y : Nat) : Bytes :=
  p.data.extract (p.window.index x y) p.data.size

def toPacked (p : Plane) : Bytes :=
  p.window.gather p.data 0

/-- The pixels of a rectangle of the plane, row by row. -/
def crop (p : Plane) (x y width height : Nat) : Bytes :=
  (⟨width, height, p.stride⟩ : Window).gather p.data (p.window.index x y)

/-- Write a row-by-row list of pixels into a rectangle of the plane. -/
def paste (p : Plane) (x y width height : Nat) (pixels : Bytes) : Plane :=
  match p with
  | ⟨planeW, planeH, stride, data, wide, holds⟩ =>
      let target : Window := ⟨width, height, stride⟩
      ⟨planeW, planeH, stride, target.scatter data (target.index x y) pixels, wide, by
        simpa using holds⟩

/-- Copy a window of a source buffer into a rectangle of the plane. -/
def blit (p : Plane) (x y width height : Nat) (src : Bytes) (srcStride : Nat) : Plane :=
  p.paste x y width height ((⟨width, height, srcStride⟩ : Window).gather src 0)

@[simp] theorem size_toPacked (p : Plane) : p.toPacked.size = p.width * p.height := by
  simp [toPacked, window, Window.area]

end Plane

end HopCodec
