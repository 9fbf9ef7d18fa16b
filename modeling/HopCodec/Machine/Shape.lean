/-
Relevance meshes and block shapes on the machine.
-/
import HopCodec.Block.Shape
import HopCodec.Machine.Cursor
import HopCodec.Machine.Grid
import HopCodec.Machine.Packer

namespace HopCodec.Machine

open Single

def mapCorners {α β : Type} (f : α → Run β) (c : Corners α) : Run (Corners β) := do
  return ⟨← f c.topLeft, ← f c.topRight, ← f c.bottomLeft, ← f c.bottomRight⟩

namespace Mesh

def cornerCount (blocksW blocksH : Nat) : Run Nat := do
  mul (← add blocksW 1) (← add blocksH 1)

def place (m : RelevanceMesh) (x y : Nat) : Run Nat := do
  add (← mul y (← add m.blocksW 1)) x

def get (m : RelevanceMesh) (x y : Nat) : Run RelevanceCorner := do
  fetch m.corners (← place m x y)

def blockCorners (m : RelevanceMesh) (column row : Nat) : Run (Corners RelevanceCorner) := do
  let topLeft ← get m column row
  let topRight ← get m (← add column 1) row
  let bottomLeft ← get m column (← add row 1)
  let bottomRight ← get m (← add column 1) (← add row 1)
  return ⟨topLeft, topRight, bottomLeft, bottomRight⟩

/-- Read one corner.  Both levels are read before either is judged. -/
def readCorner : Scanner RelevanceCorner := do
  let x ← Scanner.bits RelevanceMesh.levelBits
  let y ← Scanner.bits RelevanceMesh.levelBits
  match RelevanceLevel.ofIndex? x, RelevanceLevel.ofIndex? y with
  | some x, some y => return ⟨x, y⟩
  | _, _ => fun _ => refuse (.header .relevanceOutOfRange)

def read (blocksW blocksH : Nat) : Scanner RelevanceMesh := do
  let count ← cornerCount blocksW blocksH
  let corners ← Scanner.list readCorner count
  return RelevanceMesh.ofRaster blocksW blocksH corners.toArray

def writeCorner (c : RelevanceCorner) (p : Packer) : Run Packer := do
  let p ← p.writeBits c.x.index RelevanceMesh.levelBits
  p.writeBits c.y.index RelevanceMesh.levelBits

def write (m : RelevanceMesh) : Packer → Run Packer :=
  Packer.writeAll writeCorner m.corners.toList

end Mesh

/-- The pixels per sample wanted at a relevance. -/
def relevanceDensity (relevance most factor : Float32) : Run Float32 := do
  let r ← clamp relevance 0.0 1.0
  clamp (1.0 + (most - 1.0) * (1.0 - r) / (1.0 + factor * most * r)) densityMin most

/-- Rescale corner densities towards the mean `len / samples`. -/
def elasticFit (density : Corners Float32) (len samples : Nat) (most : Float32) :
    Run (Corners Float32) :=
  let mean := density.toList.foldl (· + ·) 0.0 / 4.0
  let target := ofNat len / ofNat samples
  if mean ≤ 0.0 then .ok density
  else mapCorners (fun d => clamp (d * (target / mean)) densityMin (larger most densityMin)) density

def shapeAxis (a : Axis) (direction : Direction) (relevance : Corners RelevanceLevel)
    (factor : Float32) : Run Axis := do
  let len ← axisLength a
  let most := densityMax len
  let density ← mapCorners (fun level => relevanceDensity level.value most factor) relevance
  let samples := axisSamples direction len density
  let fitted ← elasticFit density len samples most
  return { a with samples, density := fitted }

def shapeBlock (b : Block) (corners : Corners RelevanceCorner) (factor : Float32) :
    Run Block := do
  let x ← shapeAxis b.x .horizontal (corners.map RelevanceCorner.x) factor
  let y ← shapeAxis b.y .vertical (corners.map RelevanceCorner.y) factor
  return ⟨x, y⟩

/-- Shape the block in one column and row. -/
def shapeAt (mesh : RelevanceMesh) (factor : Float32) (blocksW column row : Nat)
    (blocks : Array Block) : Run (Array Block) := do
  let corners ← Mesh.blockCorners mesh column row
  let i ← add (← mul row blocksW) column
  let shaped ← shapeBlock (← fetch blocks i) corners factor
  store blocks i shaped

def applyMesh (pow : Power) (g : BlockGrid) (mesh : RelevanceMesh) (quality : Nat) :
    Run BlockGrid := do
  if mesh.blocksW ≠ g.blocksW ∨ mesh.blocksH ≠ g.blocksH then refuse (.argument .meshMismatch)
  Grid.requireSide g sideMin
  let factor := compressionFactor pow quality
  let blocks ← loop (fun row => loop (fun column =>
    shapeAt mesh factor g.blocksW column row) g.blocksW) g.blocksH g.blocks
  return { g with blocks }

end HopCodec.Machine
