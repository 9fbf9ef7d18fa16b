/-
How many samples a block keeps.  Relevance and quality give the pixels per sample wanted at each
corner; the denser of two opposite edges decides the number of samples along a direction, and the
corner densities are then rescaled towards that number.
-/
import HopCodec.Block.Grid
import HopCodec.Ladder

namespace HopCodec

open Single

inductive Direction
  | horizontal
  | vertical
deriving DecidableEq, Repr

namespace Direction

/-- The two edges of a block that run in a direction, each with its start and end value. -/
def edges {α : Type} : Direction → Corners α → (α × α) × (α × α)
  | horizontal, c => ((c.topLeft, c.topRight), (c.bottomLeft, c.bottomRight))
  | vertical, c => ((c.topLeft, c.bottomLeft), (c.topRight, c.bottomRight))

end Direction

/-- How strongly relevance pulls the density towards one pixel per sample: `2 ^ (quality / 10)`. -/
def compressionFactor (pow : Power) (quality : Nat) : Float32 :=
  pow 2.0 (ofNat quality / 10.0)

/-- The most pixels per sample that a side allows. -/
def densityMax (side : Nat) : Float32 :=
  larger (ofNat side / ofNat sideMin) densityMin

/-- The pixels per sample wanted at a relevance: the maximum at `0`, exactly one at `1`. -/
def relevanceDensity (relevance most factor : Float32) : Float32 :=
  let r := clamp relevance 0.0 1.0
  let density := 1.0 + (most - 1.0) * (1.0 - r) / (1.0 + factor * most * r)
  clamp density densityMin most

/-- The samples that cover `len` pixels along an edge with the given end densities. -/
def edgeSamples (len : Nat) (edge : Float32 × Float32) : Nat :=
  ceilNat (ofNat len / ((edge.1 + edge.2) / 2.0))

/-- The samples of an axis: enough for both edges, within the limits of the side. -/
def axisSamples (direction : Direction) (len : Nat) (density : Corners Float32) : Nat :=
  let (near, far) := direction.edges density
  min (max (max (edgeSamples len near) (edgeSamples len far)) sideMin) len

/-- Rescale corner densities so that their mean becomes `len / samples`, as far as the limits
allow. -/
def elasticFit (density : Corners Float32) (len samples : Nat) (most : Float32) :
    Corners Float32 :=
  let mean := density.toList.foldl (· + ·) 0.0 / 4.0
  let target := ofNat len / ofNat samples
  if mean ≤ 0.0 then density
  else
    let scale := target / mean
    density.map fun d => clamp (d * scale) densityMin (larger most densityMin)

/-- Shape one axis from the relevance of the corners in its direction. -/
def Axis.shape (a : Axis) (direction : Direction) (relevance : Corners RelevanceLevel)
    (factor : Float32) : Axis :=
  let most := densityMax a.length
  let density := relevance.map fun level => relevanceDensity level.value most factor
  let samples := axisSamples direction a.length density
  { a with samples, density := elasticFit density a.length samples most }

/-- Shape a block from the relevance at its corners. -/
def Block.shape (b : Block) (corners : Corners RelevanceCorner) (factor : Float32) : Block :=
  ⟨b.x.shape .horizontal (corners.map RelevanceCorner.x) factor,
    b.y.shape .vertical (corners.map RelevanceCorner.y) factor⟩

/-- Shape every block of a grid from a mesh. -/
def BlockGrid.applyMesh (pow : Power) (g : BlockGrid) (mesh : RelevanceMesh) (quality : Nat) :
    Except Fault BlockGrid :=
  if mesh.blocksW ≠ g.blocksW ∨ mesh.blocksH ≠ g.blocksH then
    .error (.argument .meshMismatch)
  else do
    g.requireSide sideMin
    let factor := compressionFactor pow quality
    return g.mapBlocks fun column row b => b.shape (mesh.blockCorners column row) factor

end HopCodec
