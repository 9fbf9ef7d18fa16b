/-
The raster scan on the machine.  The tables of a predictor lie in two flat buffers, and a scan
writes what it reconstructs straight into the buffer that it predicts from.
-/
import HopCodec.Machine.Word
import HopCodec.Prediction

namespace HopCodec.Machine

/-- How many ratios, and how many steps, the tables cover. -/
def ratioCount : Nat := 21

def stepCount : Nat := 19

/-- The ladders of one ratio and step, and of one predicted value. -/
def ladderSpan : Nat := 3591

/-- The tables as buffers: the rungs of all ladders, and the nearest hops by their index. -/
structure Ladders where
  rungs : Bytes
  nearest : Bytes

namespace Ladders

/-- The place of a ratio and a step among all of them. -/
def sheet (ratio step : Nat) : Run Nat := do
  ensure (Predictor.ratioMin ≤ ratio ∧ ratio ≤ Predictor.ratioMax)
  ensure (1 ≤ step ∧ step ≤ stepCount)
  add (← mul (← sub ratio Predictor.ratioMin) stepCount) (← sub step 1)

/-- The value that a hop reconstructs to. -/
def value (l : Ladders) (ratio step : Nat) (predicted : UInt8) (hop : Hop) : Run UInt8 := do
  let start ← add (← mul predicted.toNat ladderSpan) (← mul (← sheet ratio step) 9)
  fetch l.rungs (← add start hop.index)

/-- The hop that comes closest to a target. -/
def hop (l : Ladders) (ratio step : Nat) (target predicted : UInt8) : Run Hop := do
  let start ← mul (← mul (← sheet ratio step) 256) 256
  let row ← add start (← mul target.toNat 256)
  let index ← fetch l.nearest (← add row predicted.toNat)
  return (Hop.ofIndex? index.toNat).getD .null

/-- The buffers that hold given tables. -/
def ofTables (t : Tables) : Ladders where
  rungs := Array.ofFn fun k : Fin (256 * ladderSpan) =>
    let ladder := k.val / 9
    let sheet := ladder % (ratioCount * stepCount)
    t.ladder (Predictor.ratioMin + sheet / stepCount) (1 + sheet % stepCount)
      (UInt8.ofNat (ladder / (ratioCount * stepCount)))
      (Hop.ofIndex ⟨k.val % 9, Nat.mod_lt _ (by decide)⟩)
  nearest := Array.ofFn fun k : Fin (ratioCount * stepCount * 256 * 256) =>
    let sheet := k.val / 256 / 256
    UInt8.ofNat (t.nearest (Predictor.ratioMin + sheet / stepCount) (1 + sheet % stepCount)
      (UInt8.ofNat (k.val / 256)) (UInt8.ofNat k.val)).index

end Ladders

/-- A scan under way: the buffer it reconstructs into, the state after the last hop, and the hops
taken so far. -/
structure Scanning where
  pixels : Bytes
  state : Adaptation
  hops : Array Hop

/-- A way to choose the hop of pixel `i`, given the step and the predicted value. -/
abbrev HopSource := (i step : Nat) → (predicted : UInt8) → Run Hop

/-- A prediction rule with the buffers it looks values up in. -/
structure Forecast where
  ladders : Ladders
  ratio : Nat
  prediction : Prediction

namespace Forecast

def ofPredictor (p : Predictor) : Forecast :=
  ⟨.ofTables p.tables, p.ratio, p.prediction⟩

def blend (prediction : Prediction) (left corner : Nat) : Run UInt8 := do
  match prediction with
  | .average => return UInt8.ofNat (← shiftRight 32 (← fit halfSize (left + corner)) 1)
  | .weighted =>
      let sum ← fit halfSize ((← fit halfSize (4 * left)) + (← fit halfSize (3 * corner)))
      return UInt8.ofNat (← div sum 7)

/-- Predict the pixel in one column and row. -/
def predict (f : Forecast) (pixels : Bytes) (stride width x y : Nat) : Run UInt8 := do
  let i ← add (← mul y stride) x
  if y = 0 then fetch pixels (← sub i 1)
  else
    let up ← fetch pixels (← sub i stride)
    if x = 0 then return up
    else
      let left ← fetch pixels (← sub i 1)
      if x = (← sub width 1) then blend .average left.toNat up.toNat
      else
        let corner ← fetch pixels (← add (← sub i stride) 1)
        blend f.prediction left.toNat corner.toNat

/-- Scan the pixel in one column and row. -/
def scanPixel (f : Forecast) (seed : UInt8) (width stride : Nat) (source : HopSource) (x y : Nat)
    (s : Scanning) : Run Scanning := do
  if x = 0 ∧ y = 0 then
    return ⟨← store s.pixels 0 seed, s.state.after .null, s.hops.push .null⟩
  else
    let before := if x = 0 then .start else s.state
    let predicted ← f.predict s.pixels stride width x y
    let hop ← source (← add (← mul y width) x) before.step predicted
    let value ← f.ladders.value f.ratio before.step predicted hop
    let pixels ← store s.pixels (← add (← mul y stride) x) value
    return ⟨pixels, before.after hop, s.hops.push hop⟩

def scan (f : Forecast) (seed : UInt8) (target : Window) (pixels : Bytes) (source : HopSource) :
    Run Scanning :=
  loop (fun y => loop (fun x => f.scanPixel seed target.width target.stride source x y)
    target.width) target.height ⟨pixels, .start, #[]⟩

/-- The checks on a window before a scan. -/
def check (w : Window) (len : Nat) : Run Unit := do
  if w.width = 0 ∨ w.height = 0 then refuse (.argument .emptyBlock)
  else if w.stride < w.width then refuse (.argument .narrowStride)
  else
    let extent ← add (← mul (← sub w.height 1) w.stride) w.width
    if len < extent then refuse (.argument .shortPixelBuffer)

/-- Rebuild a block from its seed and hops. -/
def decode (f : Forecast) (seed : UInt8) (hops : Array Hop) (target : Window) (pixels : Bytes) :
    Run Scanning := do
  check target pixels.size
  if hops.size ≠ (← mul target.width target.height) then refuse (.argument .hopCount)
  f.scan seed target pixels fun i _ _ => fetch hops i

/-- Scan the pixel in one column and row and note the state behind it. -/
def tracePixel (f : Forecast) (seed : UInt8) (width stride : Nat) (source : HopSource)
    (x y : Nat) (t : Scanning × Array Adaptation) : Run (Scanning × Array Adaptation) := do
  let s ← f.scanPixel seed width stride source x y t.1
  return (s, t.2.push s.state)

/-- Rebuild a block as `decode` does, with the state behind every pixel. -/
def decodeTraced (f : Forecast) (seed : UInt8) (hops : Array Hop) (target : Window)
    (pixels : Bytes) : Run (Scanning × Array Adaptation) := do
  check target pixels.size
  if hops.size ≠ (← mul target.width target.height) then refuse (.argument .hopCount)
  loop (fun y => loop (fun x =>
      f.tracePixel seed target.width target.stride (fun i _ _ => fetch hops i) x y)
    target.width) target.height (⟨pixels, .start, #[]⟩, #[])

def nearest (f : Forecast) (source : Window) (src : Bytes) : HopSource := fun i step predicted => do
  let row ← mul (← div i source.width) source.stride
  let original ← fetch src (← add row (← rem i source.width))
  f.ladders.hop f.ratio step original predicted

/-- Code a block of a source buffer. -/
def encode (f : Forecast) (source : Window) (src : Bytes) (target : Window) (pixels : Bytes) :
    Run Scanning := do
  check source src.size
  check target pixels.size
  let seed ← fetch src 0
  lift (reserve (← mul target.width target.height))
  f.scan seed target pixels (f.nearest source src)

end Forecast

end HopCodec.Machine
