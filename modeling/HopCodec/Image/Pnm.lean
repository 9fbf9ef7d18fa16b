/-
Binary PGM and PPM images.  The header is a magic and three numbers, set apart by white space and
comments; one byte of white space separates it from the raster.
-/
import HopCodec.Image.Rgb
import HopCodec.Text.Digits
import HopCodec.Text.Quoted
import HopCodec.Text.Utf8

namespace HopCodec

/-- The binary image formats with a header. -/
inductive PnmKind
  | gray
  | colour
deriving DecidableEq, Repr

namespace PnmKind

def magic : PnmKind → String
  | gray => "P5"
  | colour => "P6"

/-- Bytes per pixel. -/
def channels : PnmKind → Nat
  | gray => 1
  | colour => 3

end PnmKind

namespace Pnm

/-- Space, tab, newline, form feed and carriage return. -/
def isSpace (byte : UInt8) : Bool :=
  byte = 0x20 || byte = 0x09 || byte = 0x0A || byte = 0x0C || byte = 0x0D

/-- Skip white space and comments.  A comment runs from a number sign to the end of its line. -/
def skipBlank (inComment : Bool) : List UInt8 → List UInt8
  | [] => []
  | byte :: rest =>
      if inComment then skipBlank (byte ≠ 0x0A) rest
      else if byte = 0x23 then skipBlank true rest
      else if isSpace byte then skipBlank false rest
      else byte :: rest

/-- The next token: bytes up to white space, and what follows them. -/
def token (data : List UInt8) : Except Fault (List UInt8 × List UInt8) :=
  let data := skipBlank false data
  let bytes := data.takeWhile fun byte => !isSpace byte
  if bytes.isEmpty then .error (.format .headerEndsEarly)
  else .ok (bytes, data.dropWhile fun byte => !isSpace byte)

/-- The next token as a number of 64 bits. -/
def number (data : List UInt8) : Except Fault (Nat × List UInt8) := do
  let (bytes, rest) ← token data
  match Text.wholeNumber? (1 <<< 64) (bytes.map fun byte => Char.ofNat byte.toNat) with
  | some n => return (n, rest)
  | none => throw (.format .notANumber)

def kindOf (magic : List UInt8) : Except Fault PnmKind :=
  if magic = [0x50, 0x35] then .ok .gray
  else if magic = [0x50, 0x36] then .ok .colour
  else .error (.format (.badMagic (Text.quoted (Utf8.decode magic))))

/-- What an image header says, and the bytes from the one after it on. -/
structure Header where
  kind : PnmKind
  width : Nat
  height : Nat
  rest : List UInt8

def readHeader (data : List UInt8) : Except Fault Header := do
  let (magic, data) ← token data
  let kind ← kindOf magic
  let (width, data) ← number data
  let (height, data) ← number data
  let (maxval, data) ← number data
  if maxval ≠ 255 then throw (.format (.badMaxval maxval))
  if width = 0 ∨ height = 0 then throw (.format .noPixels)
  return ⟨kind, width, height, data⟩

def grayFrame (raster : Bytes) (width height : Nat) (chroma : ChromaFormat) :
    Except Fault Frame := do
  reserve (width * height)
  let (chromaW, chromaH) := chroma.chromaSize width height
  let luma ← Plane.ofBytes? width height width raster
  let a ← Plane.filled? chromaW chromaH Frame.neutral
  let b ← Plane.filled? chromaW chromaH Frame.neutral
  Frame.ofPlanes? chroma ⟨luma, a, b⟩

/-- Read an image as a frame of the given chroma format. -/
def read (data : Bytes) (chroma : ChromaFormat) : Except Fault Frame := do
  let h ← readHeader data.toList
  let size := h.width * h.height * h.kind.channels
  if 1 <<< 64 ≤ size then throw (.format .imageTooLarge)
  if h.rest.length < 1 + size then throw .truncated
  let raster := ((h.rest.drop 1).take size).toArray
  match h.kind with
  | .gray => grayFrame raster h.width h.height chroma
  | .colour => Rgb.toFrame raster h.width h.height chroma

/-- The image file of a frame.  A gray image keeps luma only. -/
def write (f : Frame) (kind : PnmKind) : Bytes :=
  let raster := match kind with
    | .gray => f.planes.luma.toPacked
    | .colour => Rgb.ofFrame f
  s!"{kind.magic}\n{f.width} {f.height}\n255\n".toUTF8.data ++ raster

end Pnm

end HopCodec
