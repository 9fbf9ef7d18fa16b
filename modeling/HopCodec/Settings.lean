/-
Coder settings: what the caller of the codec may choose.
-/
import HopCodec.Frame.Header

namespace HopCodec

/-- Whether blocks are coded one after another.  The result is the same either way. -/
inductive Execution
  | sequential
  | parallel
deriving DecidableEq, Repr

/-- The choices of a coder.  A decoder takes everything that shapes pixels from the frame. -/
structure Settings where
  mode : FrameMode := .parallel
  blocksW : UInt8 := 8
  blocksH : UInt8 := 8
  /-- Ten times the largest growth factor of a ladder. -/
  ratio : UInt8 := 25
  quality : UInt8 := 50
  prediction : Prediction := .average
  execution : Execution := .parallel
  /-- Block workers; zero stands for one per core. -/
  workers : Nat := 0
  /-- The format that images are converted to. -/
  chroma : ChromaFormat := .yuv420
deriving DecidableEq, Repr

namespace Settings

def qualityMax : UInt8 := 99

def workersMax : Nat := 200

def withBlocks (s : Settings) (blocksW blocksH : UInt8) : Settings :=
  { s with blocksW := max blocksW 1, blocksH := max blocksH 1 }

def withQuality (s : Settings) (quality : UInt8) : Settings :=
  { s with quality := min quality qualityMax }

def withWorkers (s : Settings) (workers : Nat) : Settings :=
  { s with workers := min workers workersMax }

/-- The first fault of the settings. -/
def fault? (s : Settings) : Option ArgumentFault :=
  if s.ratio.toNat < Predictor.ratioMin ∨ Predictor.ratioMax < s.ratio.toNat then
    some (.header .ratioOutOfRange)
  else if qualityMax < s.quality then some (.header .qualityTooHigh)
  else if s.blocksW = 0 ∨ s.blocksH = 0 then some (.header .noBlocks)
  else if s.prediction = .weighted ∧ s.mode ≠ .sequential then some .weightedNeedsSequential
  else none

def validate (s : Settings) : Except Fault Unit :=
  match s.fault? with
  | some fault => .error (.argument fault)
  | none => .ok ()

/-- Whether the `i`-th of `n` pieces of `len` pixels, and its image on a plane subsampled by
`factor`, are at least `side` pixels long. -/
def pieceFits (len n factor side i : Nat) : Bool :=
  let start := i * len / n
  let stop := (i + 1) * len / n
  side ≤ stop - start && side ≤ ceilDiv stop factor - ceilDiv start factor

/-- Whether `len` pixels can be cut into `n` pieces that all fit. -/
def axisFits (len n factor side : Nat) : Bool :=
  (List.range n).all (pieceFits len n factor side)

/-- The largest number of pieces, up to `requested`, that fits; one piece if none does. -/
def fitAxis (len factor side : Nat) : (requested : Nat) → Nat
  | 0 => 1
  | 1 => 1
  | n + 2 => if axisFits len (n + 2) factor side then n + 2 else fitAxis len factor side (n + 1)

/-- The largest grid, up to the requested one, that a frame of the given size can be cut into. -/
def fitGrid (s : Settings) (width height : Nat) (chroma : ChromaFormat) : UInt8 × UInt8 :=
  let side := if s.mode = .advanced then sideMin else 1
  if s.mode = .sequential then (1, 1)
  else
    (UInt8.ofNat (fitAxis width chroma.factors.1 side s.blocksW.toNat),
      UInt8.ofNat (fitAxis height chroma.factors.2 side s.blocksH.toNat))

/-- The header of a frame coded with these settings.  A sequential frame is one block. -/
def header (s : Settings) (chroma : ChromaFormat) (width height : UInt32) : FrameHeader :=
  let (blocksW, blocksH) := if s.mode = .sequential then (1, 1) else (s.blocksW, s.blocksH)
  { mode := s.mode, chroma, width, height, blocksW, blocksH, ratio := s.ratio
    prediction := s.prediction }

end Settings

end HopCodec
