/-
Decoding a container into an image file.
-/
import HopCodec.Codec
import HopCodec.Container
import HopCodec.Image.Format
import HopCodec.Session

namespace HopCodec

structure DecodeReport where
  frames : Nat
  /-- The size of the container. -/
  encodedBytes : Nat
  /-- The size of all decoded frames as raw planes. -/
  rawBytes : Nat
deriving DecidableEq, Repr

namespace Job

/-- Decode payloads one after another, showing progress.  `done` of `total` are behind. -/
def decodePayloads (codec : Codec) (total done : Nat) : List ContainerEntry → Job (List Frame)
  | [] => return []
  | entry :: rest => do
      note 3 s!"\rDecoding frame {done + 1}/{total}   "
      let decoded ← lift (codec.decode entry.payload)
      note 4 (decoded.describe entry.payload)
      return decoded.frame :: (← decodePayloads codec total (done + 1) rest)

def decodeContainer (codec : Codec) (data : Bytes) : Job (List Frame) := do
  let entries ← lift (Container.read data)
  decodePayloads codec entries.length 0 entries

/-- The frames of a container and the file that holds them. -/
structure DecodedInput where
  /-- The size of the container. -/
  encodedBytes : Nat
  frames : List Frame
  bytes : Bytes

/-- Decode a container to the bytes of an image file. -/
def decodeInput (model : Model) (settings : Settings) (format : ImageFormat) (input : String) :
    Job DecodedInput := do
  let data ← readInput input
  let codec ← lift (Codec.new? model settings)
  let frames ← decodeContainer codec data
  note 3 "\n"
  let bytes ← lift (format.writeFrames frames)
  return ⟨data.size, frames, bytes⟩

/-- Decode a container and write its frames in the format that the output path announces. -/
def decodeFile (model : Model) (settings : Settings) (input output : String)
    (overwrite : Bool) : Job DecodeReport := do
  match ImageFormat.ofPath? output with
  | none => throw (.format (.unknownImage output))
  | some format =>
      let decoded ← decodeInput model settings format input
      writeOutput output decoded.bytes overwrite
      let rawBytes := decoded.frames.foldl
        (fun n f => n + Yuv.frameSize f.width f.height f.chroma) 0
      note 2 (s!"Decoded {decoded.frames.length} frame(s) : " ++
        s!"{decoded.encodedBytes} -> {rawBytes} bytes\n")
      return ⟨decoded.frames.length, decoded.encodedBytes, rawBytes⟩

end Job

end HopCodec
