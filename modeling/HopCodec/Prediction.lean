/-
The raster scan shared by both directions of the codec.  Every pixel is predicted from pixels that
are already reconstructed, so encoder and decoder stay in step: they differ only in how the next
hop is chosen.
-/
import HopCodec.Adaptation
import HopCodec.Ladder.Tables
import HopCodec.Raster

namespace HopCodec

/-- How a pixel inside a row is predicted from its left and upper right neighbours. -/
inductive Prediction
  | average
  | weighted
deriving DecidableEq, Repr

/-- The prediction rule with the tables it works on. -/
structure Predictor where
  tables : Tables
  ratio : Nat
  prediction : Prediction

/-- A pixel as the scan leaves it: its value, the hop taken and the state after that hop. -/
structure ScannedPixel where
  value : UInt8
  hop : Hop
  state : Adaptation
deriving DecidableEq, Repr

/-- The pixels scanned so far, in raster order. -/
abbrev Scan := Array ScannedPixel

namespace Scan

def value (s : Scan) (i : Nat) : UInt8 :=
  ((s[i]?).map ScannedPixel.value).getD 0

def values (s : Scan) : Bytes :=
  s.map ScannedPixel.value

def hops (s : Scan) : Array Hop :=
  s.map ScannedPixel.hop

def states (s : Scan) : Array Adaptation :=
  s.map ScannedPixel.state

end Scan

/-- A way to choose the hop of pixel `i`, given the step and the predicted value. -/
abbrev HopChoice := (i step : Nat) → (predicted : UInt8) → Hop

namespace Predictor

def ratioMin : Nat := 20

def ratioMax : Nat := 40

/-- A predictor needs a ratio the tables cover. -/
def new? (tables : Tables) (ratio : Nat) (prediction : Prediction) : Except Fault Predictor :=
  if ratioMin ≤ ratio ∧ ratio ≤ ratioMax then .ok ⟨tables, ratio, prediction⟩
  else .error (.argument (.header .ratioOutOfRange))

/-- Predict the next pixel of a scan over rows of `width` pixels.  The first row looks left and the
first column up; the last column averages the left and upper neighbours, all other pixels blend
the left and upper right ones. -/
def predict (p : Predictor) (width : Nat) (s : Scan) : UInt8 :=
  let i := s.size
  let x := i % width
  let y := i / width
  if y = 0 then s.value (i - 1)
  else if x = 0 then s.value (i - width)
  else
    let left := (s.value (i - 1)).toNat
    if x = width - 1 then
      UInt8.ofNat ((left + (s.value (i - width)).toNat) / 2)
    else
      let corner := (s.value (i - width + 1)).toNat
      match p.prediction with
      | .average => UInt8.ofNat ((left + corner) / 2)
      | .weighted => UInt8.ofNat ((4 * left + 3 * corner) / 7)

/-- The state that the next pixel of a scan starts from.  Every row starts afresh. -/
def stateBefore (width : Nat) (s : Scan) : Adaptation :=
  if s.size % width = 0 then .start
  else ((s.back?).map ScannedPixel.state).getD .start

/-- Scan one more pixel.  The corner pixel is the seed and takes the null hop. -/
def scanNext (p : Predictor) (width : Nat) (seed : UInt8) (choice : HopChoice) (s : Scan) : Scan :=
  let before := stateBefore width s
  if s.size = 0 then s.push ⟨seed, .null, before.after .null⟩
  else
    let predicted := p.predict width s
    let hop := choice s.size before.step predicted
    s.push ⟨p.tables.ladder p.ratio before.step predicted hop, hop, before.after hop⟩

/-- Scan `count` pixels of rows of `width` pixels. -/
def scan (p : Predictor) (width : Nat) (seed : UInt8) (choice : HopChoice) (count : Nat) : Scan :=
  count.fold (fun _ _ s => p.scanNext width seed choice s) #[]

theorem size_scanNext (p : Predictor) (width : Nat) (seed : UInt8) (choice : HopChoice)
    (s : Scan) : (p.scanNext width seed choice s).size = s.size + 1 := by
  unfold scanNext
  by_cases h : s.size = 0 <;> simp [h]

theorem scan_succ (p : Predictor) (width : Nat) (seed : UInt8) (choice : HopChoice)
    (count : Nat) :
    p.scan width seed choice (count + 1) =
      p.scanNext width seed choice (p.scan width seed choice count) := by
  simp [scan]

@[simp] theorem size_scan (p : Predictor) (width : Nat) (seed : UInt8) (choice : HopChoice)
    (count : Nat) : (p.scan width seed choice count).size = count := by
  induction count with
  | zero => rfl
  | succ count ih => rw [scan_succ, size_scanNext, ih]

/-- Take the hop that comes closest to the source pixel. -/
def chooseNearest (p : Predictor) (pixels : Bytes) : HopChoice :=
  fun i step predicted => p.tables.nearest p.ratio step (pixels.getD i 0) predicted

/-- Take the hop that a list prescribes. -/
def chooseFrom (hops : Array Hop) : HopChoice :=
  fun i _ _ => hops.getD i .null

/-- Code a block given row by row.  The seed is its first pixel. -/
def encodeBlock (p : Predictor) (width height : Nat) (pixels : Bytes) : Scan :=
  p.scan width (pixels.getD 0 0) (p.chooseNearest pixels) (width * height)

/-- Rebuild a block from its seed and hops.  The first hop counts as null whatever it is. -/
def decodeBlock (p : Predictor) (width height : Nat) (seed : UInt8) (hops : Array Hop) : Scan :=
  p.scan width seed (chooseFrom hops) (width * height)

/-- Code a window of a source buffer and write what a decoder will see into a window of the same
size of another buffer. -/
def encode (p : Predictor) (source : Window) (src : Bytes) (target : Window) (dst : Bytes) :
    Except Fault (Scan × Bytes) := do
  source.check src.size
  target.check dst.size
  let scan := p.encodeBlock source.width source.height (source.gather src 0)
  return (scan, target.scatter dst 0 scan.values)

/-- Rebuild a window of a buffer from a seed and one hop per pixel. -/
def decode (p : Predictor) (seed : UInt8) (hops : Array Hop) (target : Window) (dst : Bytes) :
    Except Fault (Scan × Bytes) := do
  target.check dst.size
  if hops.size ≠ target.area then throw (.argument .hopCount)
  let scan := p.decodeBlock target.width target.height seed hops
  return (scan, target.scatter dst 0 scan.values)

end Predictor

end HopCodec
