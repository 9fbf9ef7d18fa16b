/-
Binary images with a header on the machine.  The reader moves a place through the data, one byte at
a time; how often it may move is bounded beforehand, and running out of moves traps.
-/
import HopCodec.Image.Pnm
import HopCodec.Machine.Rgb

namespace HopCodec.Machine

/-- A product, if it fits a word. -/
def checkedMul (a b : Nat) : Option Nat :=
  if a * b < wordSize then some (a * b) else none

/-- A black picture without colour. -/
def Picture.new (width height : Nat) (chroma : ChromaFormat) : Run Picture := do
  let size ← chromaSize chroma width height
  let luma ← Canvas.new width height
  let a ← Canvas.filled size.1 size.2 Frame.neutral
  let b ← Canvas.filled size.1 size.2 Frame.neutral
  return ⟨chroma, ⟨luma, a, b⟩⟩

namespace Pnm

open HopCodec.Pnm (isSpace kindOf)

/-- Move on while the bytes have a property. -/
def scan (p : UInt8 → Bool) (data : Bytes) : (moves : Nat) → (place : Nat) → Run Nat
  | 0, _ => .error (.trap .endlessLoop)
  | moves + 1, place =>
      if place < data.size then do
        if p (← fetch data place) then scan p data moves (← add place 1)
        else return place
      else return place

def skipBlank (data : Bytes) : (moves : Nat) → (place : Nat) → Run Nat
  | 0, _ => .error (.trap .endlessLoop)
  | moves + 1, place =>
      if place < data.size then do
        let byte ← fetch data place
        if byte = 0x23 then
          skipBlank data moves (← scan (· ≠ 0x0A) data (data.size + 1) place)
        else if isSpace byte then skipBlank data moves (← add place 1)
        else return place
      else return place

/-- The next token and the place behind it. -/
def token (data : Bytes) (place : Nat) : Run (Bytes × Nat) := do
  let start ← skipBlank data (data.size + 1) place
  let stop ← scan (fun byte => !isSpace byte) data (data.size + 1) start
  if start = stop then refuse (.format .headerEndsEarly)
  return (← slice data start stop, stop)

def number (data : Bytes) (place : Nat) : Run (Nat × Nat) := do
  let (bytes, place) ← token data place
  match Text.wholeNumber? wordSize (bytes.toList.map fun byte => Char.ofNat byte.toNat) with
  | some n => return (n, place)
  | none => refuse (.format .notANumber)

/-- What an image header says, and the place behind it. -/
structure Header where
  kind : PnmKind
  width : Nat
  height : Nat
  place : Nat

def readHeader (data : Bytes) : Run Header := do
  let (magic, place) ← token data 0
  let kind ← lift (kindOf magic.toList)
  let (width, place) ← number data place
  let (height, place) ← number data place
  let (maxval, place) ← number data place
  if maxval ≠ 255 then refuse (.format (.badMaxval maxval))
  if width = 0 ∨ height = 0 then refuse (.format .noPixels)
  return ⟨kind, width, height, place⟩

def grayPicture (raster : Bytes) (width height : Nat) (chroma : ChromaFormat) : Run Picture := do
  let picture ← Picture.new width height chroma
  let luma := picture.planes.luma
  ensure (luma.data.size = raster.size)
  return { picture with planes := { picture.planes with luma := { luma with data := raster } } }

/-- Read an image as a picture of the given chroma format. -/
def read (data : Bytes) (chroma : ChromaFormat) : Run Picture := do
  let h ← readHeader data
  let start ← add h.place 1
  match (checkedMul h.width h.height).bind fun area => checkedMul area h.kind.channels with
  | none => refuse (.format .imageTooLarge)
  | some size =>
      if data.size < start then refuse .truncated
      if (← sub data.size start) < size then refuse .truncated
      let raster ← slice data start (← add start size)
      match h.kind with
      | .gray => grayPicture raster h.width h.height chroma
      | .colour => Rgb.toPicture raster h.width h.height chroma

/-- The image file of the luma plane of a picture. -/
def writeGray (p : Picture) : Run Bytes := do
  let luma := p.planes.luma
  let raster ← luma.toPacked
  return s!"{PnmKind.gray.magic}\n{luma.width} {luma.height}\n255\n".toUTF8.data ++ raster

end Pnm

end HopCodec.Machine
