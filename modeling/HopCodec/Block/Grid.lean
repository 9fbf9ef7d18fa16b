/-
Block grids.  A plane is cut into blocks by boundaries spaced as evenly as whole pixels allow; a
subsampled plane is cut at the rounded-up images of the same boundaries.
-/
import HopCodec.Relevance.Mesh
import HopCodec.Fault

namespace HopCodec

/-- The smallest side of a downsampled block, and of any block that may be downsampled. -/
def sideMin : Nat := 2

/-- Pixels per sample where nothing is dropped. -/
def densityMin : Float32 := 1.0

/-- One direction of a block: the pixels `[start, stop)`, the number of samples coded for them and
the pixels per sample wanted at each corner. -/
structure Axis where
  start : Nat
  stop : Nat
  samples : Nat
  density : Corners Float32

namespace Axis

/-- An axis coded with one sample per pixel. -/
def full (start stop : Nat) : Axis :=
  ⟨start, stop, stop - start, .const densityMin⟩

def length (a : Axis) : Nat :=
  a.stop - a.start

def isReduced (a : Axis) : Bool :=
  a.samples < a.length

end Axis

/-- A rectangle of a plane with its sampling in each direction. -/
structure Block where
  x : Axis
  y : Axis

namespace Block

def full (left right top bottom : Nat) : Block :=
  ⟨.full left right, .full top bottom⟩

def width (b : Block) : Nat :=
  b.x.length

def height (b : Block) : Nat :=
  b.y.length

def isDownsampled (b : Block) : Bool :=
  b.x.isReduced || b.y.isReduced

/-- The number of coded samples, one hop each. -/
def sampleCount (b : Block) : Nat :=
  b.x.samples * b.y.samples

end Block

def ceilDiv (a b : Nat) : Nat :=
  (a + b - 1) / b

/-- The `n + 1` boundaries that cut `len` pixels into `n` pieces. -/
def gridBoundaries (len n : Nat) : List Nat :=
  (List.range (n + 1)).map fun i => i * len / n

/-- Whether each number of a list is larger than the one before. -/
def strictlyRising : List Nat → Bool
  | a :: b :: rest => a < b && strictlyRising (b :: rest)
  | _ => true

/-- The blocks of a plane in raster order. -/
structure BlockGrid where
  blocksW : Nat
  blocksH : Nat
  xBounds : Array Nat
  yBounds : Array Nat
  blocks : Array Block

namespace BlockGrid

/-- The full-resolution block between the given boundaries. -/
def blockAt (xBounds yBounds : Array Nat) (column row : Nat) : Block :=
  .full (xBounds.getD column 0) (xBounds.getD (column + 1) 0) (yBounds.getD row 0)
    (yBounds.getD (row + 1) 0)

/-- The full-resolution grid between boundaries.  No block may be empty. -/
def ofBounds (blocksW blocksH : Nat) (xBounds yBounds : List Nat) : Except Fault BlockGrid :=
  if strictlyRising xBounds && strictlyRising yBounds then
    let xs := xBounds.toArray
    let ys := yBounds.toArray
    .ok ⟨blocksW, blocksH, xs, ys,
      Array.ofFn fun i : Fin (blocksW * blocksH) => blockAt xs ys (i % blocksW) (i / blocksW)⟩
  else .error (.header .emptyBlock)

/-- Cut a plane into `blocksW × blocksH` full-resolution blocks. -/
def partition (width height blocksW blocksH : Nat) : Except Fault BlockGrid :=
  if blocksW = 0 ∨ blocksH = 0 then .error (.header .noBlocks)
  else ofBounds blocksW blocksH (gridBoundaries width blocksW) (gridBoundaries height blocksH)

/-- Carry the sampling of an axis over to its subsampled image. -/
def subsampleAxis (image source : Axis) (factor : Nat) : Axis :=
  { image with
    samples :=
      if source.isReduced then
        min (max (ceilDiv source.samples factor) sideMin) image.length
      else image.samples
    density := source.density }

/-- The grid of a plane subsampled by the given factors. -/
def subsample (g : BlockGrid) (factorX factorY : Nat) : Except Fault BlockGrid := do
  let image ← ofBounds g.blocksW g.blocksH (g.xBounds.toList.map (ceilDiv · factorX))
    (g.yBounds.toList.map (ceilDiv · factorY))
  return { image with
    blocks := image.blocks.zipWith
      (fun b source =>
        ⟨subsampleAxis b.x source.x factorX, subsampleAxis b.y source.y factorY⟩)
      g.blocks }

/-- Every block must be at least `side` pixels wide and high. -/
def requireSide (g : BlockGrid) (side : Nat) : Except Fault Unit :=
  if g.blocks.any fun b => b.width < side || b.height < side then
    .error (.header .blockTooSmall)
  else .ok ()

def sampleCount (g : BlockGrid) : Nat :=
  g.blocks.foldl (fun count b => count + b.sampleCount) 0

/-- Reshape every block, given its column and row. -/
def mapBlocks (g : BlockGrid) (f : Nat → Nat → Block → Block) : BlockGrid :=
  { g with blocks := g.blocks.mapIdx fun i b => f (i % g.blocksW) (i / g.blocksW) b }

end BlockGrid

end HopCodec
