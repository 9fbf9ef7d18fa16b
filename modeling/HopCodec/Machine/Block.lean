/-
Coding single blocks on the machine.
-/
import HopCodec.Frame.Block
import HopCodec.Machine.Canvas
import HopCodec.Machine.Counts
import HopCodec.Machine.Resample
import HopCodec.Machine.Scan

namespace HopCodec.Machine

/-- A coded block with its hops counted. -/
structure CountedBlock where
  block : CodedBlock
  counts : Histogram

namespace Forecast

def rebuildBlock (f : Forecast) (b : Block) (seed : UInt8) (hops : Array Hop) : Run Bytes := do
  let width ← axisLength b.x
  let height ← axisLength b.y
  let pixels ← allocate (← mul width height)
  if ← isDownsampled b then
    let samples ← allocate (← mul b.x.samples b.y.samples)
    let scan ← f.decode seed hops (.packed b.x.samples b.y.samples) samples
    upsample (← Cells.ofBlock b) scan.pixels pixels width
  else
    let scan ← f.decode seed hops (.packed width height) pixels
    return scan.pixels

def codeBlock (f : Forecast) (plane : Canvas) (b : Block) : Run CountedBlock := do
  let width ← axisLength b.x
  let height ← axisLength b.y
  let src ← plane.region b.x.start b.y.start
  let pixels ← allocate (← mul width height)
  if ← isDownsampled b then
    let cells ← Cells.ofBlock b
    let samples ← allocate (← mul b.x.samples b.y.samples)
    let samples ← downsample cells src plane.stride samples
    let rebuilt ← allocate (← mul b.x.samples b.y.samples)
    let window := Window.packed b.x.samples b.y.samples
    let scan ← f.encode window samples window rebuilt
    let pixels ← upsample cells scan.pixels pixels width
    let seed ← fetch samples 0
    return ⟨⟨seed, scan.hops, pixels⟩, ← Counts.ofHops scan.hops.toList⟩
  else
    let scan ← f.encode ⟨width, height, plane.stride⟩ src (.packed width height) pixels
    let seed ← fetch src 0
    return ⟨⟨seed, scan.hops, scan.pixels⟩, ← Counts.ofHops scan.hops.toList⟩

end Forecast

namespace Grid

/-- Copy the pixels of a block into the rectangle that it belongs to. -/
def pasteBlock (canvas : Canvas) (e : Block × Bytes) : Run Canvas := do
  let width ← axisLength e.1.x
  let height ← axisLength e.1.y
  canvas.blit e.1.x.start e.1.y.start width height e.2 width

def assemble (g : BlockGrid) (width height : Nat) (pixels : List Bytes) : Run Canvas := do
  (g.blocks.toList.zip pixels).foldlM pasteBlock (← Canvas.new width height)

end Grid

end HopCodec.Machine
