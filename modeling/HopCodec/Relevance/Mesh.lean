/-
Perceptual relevance.  Each corner of the block grid carries one of six levels per direction; the
mesh lists the corners in raster order, three bits per level.
-/
import HopCodec.Bits.Writer

namespace HopCodec

/-- A quantised relevance. -/
structure RelevanceLevel where
  index : Fin 6
deriving DecidableEq, Repr, Inhabited

namespace RelevanceLevel

def zero : RelevanceLevel := ⟨0⟩

def top : RelevanceLevel := ⟨5⟩

def ofIndex? (i : Nat) : Option RelevanceLevel :=
  if h : i < 6 then some ⟨⟨i, h⟩⟩ else none

def all : List RelevanceLevel :=
  [⟨0⟩, ⟨1⟩, ⟨2⟩, ⟨3⟩, ⟨4⟩, ⟨5⟩]

/-- The relevance that a level stands for. -/
def value (l : RelevanceLevel) : Float32 :=
  match l.index with
  | 0 => 0.0
  | 1 => 0.125
  | 2 => 0.25
  | 3 => 0.5
  | 4 => 0.75
  | 5 => 1.0

/-- The highest level that does not exceed a relevance; the lowest one if all do. -/
def quantize (relevance : Float32) : RelevanceLevel :=
  all.foldl (fun level next => if next.value ≤ relevance then next else level) zero

end RelevanceLevel

/-- The relevance of a mesh corner in each direction. -/
structure RelevanceCorner where
  x : RelevanceLevel
  y : RelevanceLevel
deriving DecidableEq, Repr, Inhabited

def RelevanceCorner.uniform (level : RelevanceLevel) : RelevanceCorner :=
  ⟨level, level⟩

/-- One value for each corner of a block. -/
structure Corners (α : Type) where
  topLeft : α
  topRight : α
  bottomLeft : α
  bottomRight : α
deriving DecidableEq, Repr

namespace Corners

variable {α β : Type}

def const (a : α) : Corners α :=
  ⟨a, a, a, a⟩

def map (f : α → β) (c : Corners α) : Corners β :=
  ⟨f c.topLeft, f c.topRight, f c.bottomLeft, f c.bottomRight⟩

def toList (c : Corners α) : List α :=
  [c.topLeft, c.topRight, c.bottomLeft, c.bottomRight]

end Corners

/-- The corners of a `blocksW × blocksH` grid in raster order. -/
structure RelevanceMesh where
  blocksW : Nat
  blocksH : Nat
  corners : Array RelevanceCorner
  size_corners : corners.size = (blocksW + 1) * (blocksH + 1)

namespace RelevanceMesh

def cornerCount (blocksW blocksH : Nat) : Nat :=
  (blocksW + 1) * (blocksH + 1)

/-- The mesh whose corner `(x, y)` is `f x y`. -/
def ofFn (blocksW blocksH : Nat) (f : Nat → Nat → RelevanceCorner) : RelevanceMesh :=
  ⟨blocksW, blocksH,
    Array.ofFn fun i : Fin (cornerCount blocksW blocksH) =>
      f (i % (blocksW + 1)) (i / (blocksW + 1)),
    by simp [cornerCount]⟩

def uniform (blocksW blocksH : Nat) (level : RelevanceLevel) : RelevanceMesh :=
  ofFn blocksW blocksH fun _ _ => .uniform level

/-- The mesh of corners listed in raster order. -/
def ofRaster (blocksW blocksH : Nat) (corners : Array RelevanceCorner) : RelevanceMesh :=
  ofFn blocksW blocksH fun x y => corners.getD (y * (blocksW + 1) + x) default

def place (m : RelevanceMesh) (x y : Nat) : Nat :=
  y * (m.blocksW + 1) + x

def get (m : RelevanceMesh) (x y : Nat) : RelevanceCorner :=
  m.corners.getD (m.place x y) default

def set (m : RelevanceMesh) (x y : Nat) (corner : RelevanceCorner) : RelevanceMesh :=
  { m with
    corners := m.corners.setIfInBounds (m.place x y) corner
    size_corners := by rw [Array.size_setIfInBounds, m.size_corners] }

def blockCorners (m : RelevanceMesh) (column row : Nat) : Corners RelevanceCorner :=
  ⟨m.get column row, m.get (column + 1) row, m.get column (row + 1),
    m.get (column + 1) (row + 1)⟩

/-- Bits of a transmitted level. -/
def levelBits : Nat := 3

def writeCorner (w : BitWriter) (c : RelevanceCorner) : BitWriter :=
  (w.writeBits c.x.index levelBits).writeBits c.y.index levelBits

def write (m : RelevanceMesh) (w : BitWriter) : BitWriter :=
  m.corners.toList.foldl writeCorner w

/-- Read one corner.  Both levels are read before either is judged. -/
def readCorner : Reading RelevanceCorner := do
  let x ← Reading.bits levelBits
  let y ← Reading.bits levelBits
  match RelevanceLevel.ofIndex? x, RelevanceLevel.ofIndex? y with
  | some x, some y => return ⟨x, y⟩
  | _, _ => Reading.refuse (.header .relevanceOutOfRange)

def read (blocksW blocksH : Nat) : Reading RelevanceMesh := do
  let corners ← Reading.list readCorner (cornerCount blocksW blocksH)
  return ofRaster blocksW blocksH corners.toArray

end RelevanceMesh

end HopCodec
