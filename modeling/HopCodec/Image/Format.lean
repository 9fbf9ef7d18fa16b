/-
The uncompressed image formats, told apart by file extension.
-/
import HopCodec.Image.Pnm
import HopCodec.Image.Yuv
import HopCodec.Text.Path

namespace HopCodec

/-- A format of uncompressed images: an image with a header, or a raw planar sequence. -/
inductive ImageFormat
  | pnm (kind : PnmKind)
  | yuv
deriving DecidableEq, Repr

namespace ImageFormat

/-- The format of an extension in lower case. -/
def ofExtension? (extension : String) : Option ImageFormat :=
  match extension with
  | "pgm" => some (pnm .gray)
  | "ppm" => some (pnm .colour)
  | "yuv" | "i420" | "i422" | "i444" => some yuv
  | _ => none

/-- The format that a path announces. -/
def ofPath? (path : String) : Option ImageFormat :=
  (Path.extension? path).bind fun extension => ofExtension? (extension.map Char.toLower)

/-- Read all frames of a file.  A raw sequence needs to be told its frame size. -/
def readFrames (format : ImageFormat) (data : Bytes) (chroma : ChromaFormat)
    (size : Option (Nat × Nat)) : Except Fault (List Frame) :=
  match format with
  | pnm _ => do return [← Pnm.read data chroma]
  | yuv =>
      match size with
      | some (width, height) => Yuv.read data width height chroma
      | none => .error (.argument .yuvInputNeedsSize)

/-- The image file of one frame.  A raw sequence is not an image with a header. -/
def writeImage (format : ImageFormat) (f : Frame) : Except Fault Bytes :=
  match format with
  | pnm kind => .ok (Pnm.write f kind)
  | yuv => .error (.argument .yuvIsNotPnm)

/-- The file of a list of frames.  Only a raw sequence takes more or less than one. -/
def writeFrames (format : ImageFormat) (frames : List Frame) : Except Fault Bytes :=
  match format, frames with
  | pnm kind, [f] => .ok (Pnm.write f kind)
  | pnm _, _ => .error (.argument .singleFrameOutput)
  | yuv, frames => .ok (Yuv.writeAll frames)

end ImageFormat

end HopCodec
