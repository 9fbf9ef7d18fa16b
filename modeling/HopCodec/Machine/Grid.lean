/-
Block grids on the machine.
-/
import HopCodec.Block.Grid
import HopCodec.Machine.Word

namespace HopCodec.Machine

def divCeil (a b : Nat) : Run Nat :=
  if b = 0 then .error (.trap .zeroDivisor) else .ok (ceilDiv a b)

def axisFull (start stop : Nat) : Run Axis := do
  return ⟨start, stop, ← sub stop start, .const densityMin⟩

def axisLength (a : Axis) : Run Nat :=
  sub a.stop a.start

def isReduced (a : Axis) : Run Bool := do
  return a.samples < (← axisLength a)

def blockFull (left right top bottom : Nat) : Run Block := do
  return ⟨← axisFull left right, ← axisFull top bottom⟩

def isDownsampled (b : Block) : Run Bool := do
  return (← isReduced b.x) || (← isReduced b.y)

def sampleCount (b : Block) : Run Nat :=
  mul b.x.samples b.y.samples

/-- Whether a block is narrower or lower than `side`. -/
def isBelow (side : Nat) (b : Block) : Run Bool := do
  return (← axisLength b.x) < side || (← axisLength b.y) < side

def gridBoundaries (len n : Nat) : Run (List Nat) :=
  (List.range (n + 1)).mapM fun i => do div (← mul i len) n

namespace Grid

/-- The full-resolution block between the given boundaries. -/
def blockAt (xBounds yBounds : Array Nat) (column row : Nat) : Run Block := do
  let left ← fetch xBounds column
  let right ← fetch xBounds (← add column 1)
  let top ← fetch yBounds row
  let bottom ← fetch yBounds (← add row 1)
  blockFull left right top bottom

/-- The blocks between boundaries, row by row. -/
def blocksBetween (blocksW blocksH : Nat) (xBounds yBounds : Array Nat) : Run (Array Block) :=
  loop (fun row => loop (fun column blocks => do
    return blocks.push (← blockAt xBounds yBounds column row)) blocksW) blocksH #[]

def ofBounds (blocksW blocksH : Nat) (xBounds yBounds : List Nat) : Run BlockGrid := do
  if strictlyRising xBounds && strictlyRising yBounds then
    let _ ← mul blocksW blocksH
    let blocks ← blocksBetween blocksW blocksH xBounds.toArray yBounds.toArray
    return ⟨blocksW, blocksH, xBounds.toArray, yBounds.toArray, blocks⟩
  else refuse (.header .emptyBlock)

def partition (width height blocksW blocksH : Nat) : Run BlockGrid := do
  if blocksW = 0 ∨ blocksH = 0 then refuse (.header .noBlocks)
  let xBounds ← gridBoundaries width blocksW
  let yBounds ← gridBoundaries height blocksH
  ofBounds blocksW blocksH xBounds yBounds

/-- Carry the sampling of an axis over to its subsampled image. -/
def subsampleAxis (image source : Axis) (factor : Nat) : Run Axis := do
  if ← isReduced source then
    let scaled ← divCeil source.samples factor
    let length ← axisLength image
    return { image with samples := min (max scaled sideMin) length, density := source.density }
  else return { image with density := source.density }

def subsample (g : BlockGrid) (factorX factorY : Nat) : Run BlockGrid := do
  let xBounds ← g.xBounds.toList.mapM fun x => divCeil x factorX
  let yBounds ← g.yBounds.toList.mapM fun y => divCeil y factorY
  let image ← ofBounds g.blocksW g.blocksH xBounds yBounds
  let blocks ← (image.blocks.toList.zip g.blocks.toList).mapM fun (b, source) => do
    let x ← subsampleAxis b.x source.x factorX
    let y ← subsampleAxis b.y source.y factorY
    return ⟨x, y⟩
  return { image with blocks := blocks.toArray }

def requireSide (g : BlockGrid) (side : Nat) : Run Unit := do
  if ← g.blocks.toList.anyM (isBelow side) then refuse (.header .blockTooSmall)

def totalSamples (g : BlockGrid) : Run Nat :=
  g.blocks.toList.foldlM (fun count b => do add count (← sampleCount b)) 0

end Grid

end HopCodec.Machine
