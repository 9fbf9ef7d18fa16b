/-
Coding an image file into a container.
-/
import HopCodec.Codec
import HopCodec.Container
import HopCodec.Image.Format
import HopCodec.Session
import HopCodec.Text.Decimal

namespace HopCodec

structure EncodeReport where
  frames : Nat
  /-- The size of all input frames as raw planes. -/
  rawBytes : Nat
  /-- The size of the container. -/
  encodedBytes : Nat
  /-- The block grid used. -/
  blocks : UInt8 × UInt8
deriving DecidableEq, Repr

namespace Job

/-- Read every frame of an uncompressed input file. -/
def loadFrames (path : String) (chroma : ChromaFormat) (size : Option (Nat × Nat)) :
    Job (List Frame) := do
  match ImageFormat.ofPath? path with
  | none => throw (.format (.unknownImage path))
  | some format =>
      let data ← readInput path
      lift (format.readFrames data chroma size)

/-- Code frames one after another, showing progress.  `done` of `total` are behind. -/
def encodeFrames (codec : Codec) (total done : Nat) : List Frame → Job (List Bytes)
  | [] => return []
  | f :: rest => do
      note 3 s!"\rEncoding frame {done + 1}/{total}   "
      let coded ← lift (codec.encode f)
      note 4 coded.describe
      return coded.bytes :: (← encodeFrames codec total (done + 1) rest)

/-- Write a payload with its length and checksum behind the end of a file. -/
def writeEntry (place : Place) (payload : Bytes) : Job Unit := do
  if 1 <<< 32 ≤ payload.size then throw (.argument .payloadTooLarge)
  append place (Container.wordBytes (UInt32.ofNat payload.size))
  append place (Container.wordBytes (xxh32 payload 0))
  append place payload

/-- Write payloads into an open file, one after another.  What has been written before a fault
stays. -/
def writeEntries (place : Place) : List Bytes → Job Unit
  | [] => return ()
  | payload :: rest => do
      writeEntry place payload
      writeEntries place rest

/-- Write a container of payloads into an open file. -/
def writeContainer (place : Place) (payloads : List Bytes) : Job Unit := do
  if 1 <<< 32 ≤ payloads.length then throw (.argument .tooManyFrames)
  append place Container.magic
  append place (Container.wordBytes (UInt32.ofNat payloads.length))
  writeEntries place payloads

/-- The message about a block grid that had to be reduced. -/
def gridNote (s : Settings) (fitted : UInt8 × UInt8) (width height : Nat) : String :=
  s!"note: block grid reduced from {s.blocksW}x{s.blocksH} to {fitted.1}x{fitted.2} " ++
    s!"for a {width}x{height} frame\n"

/-- The size of a container in percent of the raw size, with two decimal places. -/
def percentage (encodedBytes rawBytes : Nat) : String :=
  Text.twoPlaces (encodedBytes.toFloat / (max rawBytes 1).toFloat * 100.0)

/-- The frames of an input file and what they have been coded to. -/
structure CodedInput where
  frames : List Frame
  /-- The size of the first frame, to which the block grid is fitted. -/
  width : Nat
  height : Nat
  blocks : UInt8 × UInt8
  payloads : List Bytes

/-- Load the frames of an input file and code them.  The block grid is reduced if the first frame
is too small for it. -/
def codeInput (model : Model) (settings : Settings) (input : String)
    (size : Option (Nat × Nat)) : Job CodedInput := do
  let frames ← loadFrames input settings.chroma size
  match frames with
  | [] => throw (.format .noFrame)
  | first :: _ =>
      let blocks := settings.fitGrid first.width first.height settings.chroma
      if settings.mode ≠ .sequential ∧ blocks ≠ (settings.blocksW, settings.blocksH) then
        note 2 (gridNote settings blocks first.width first.height)
      let codec ← lift (Codec.new? model (settings.withBlocks blocks.1 blocks.2))
      let payloads ← encodeFrames codec frames.length 0 frames
      note 3 "\n"
      return ⟨frames, first.width, first.height, blocks, payloads⟩

def encodeFile (model : Model) (settings : Settings) (input output : String)
    (size : Option (Nat × Nat)) (overwrite : Bool) : Job EncodeReport := do
  let coded ← codeInput model settings input size
  let place ← openOutput output overwrite
  writeContainer place coded.payloads
  let rawBytes := coded.frames.length * Yuv.frameSize coded.width coded.height settings.chroma
  let encodedBytes := Container.writtenSize coded.payloads
  note 2 (s!"Encoded {coded.frames.length} frame(s) : {rawBytes} -> {encodedBytes} bytes, " ++
    s!"{percentage encodedBytes rawBytes}%\n")
  return ⟨coded.frames.length, rawBytes, encodedBytes, coded.blocks⟩

end Job

end HopCodec
