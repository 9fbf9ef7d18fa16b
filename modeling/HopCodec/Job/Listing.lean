/-
Listing the frames of containers without rebuilding a pixel.
-/
import HopCodec.Codec
import HopCodec.Container
import HopCodec.Session
import HopCodec.Text.Decimal

namespace HopCodec

/-- What a listing says about one frame. -/
structure FrameListing where
  prologue : Prologue
  prologueBits : Nat
  payloadBytes : Nat
  checksum : UInt32

structure ContainerListing where
  fileBytes : Nat
  frames : List FrameListing

namespace FrameListing

def ofEntry (pow : Power) (entry : ContainerEntry) : Except Fault FrameListing := do
  let (prologue, bits) ← Prologue.inspect pow entry.payload
  return ⟨prologue, bits, entry.payload.size, entry.checksum⟩

/-- A row of the table. -/
def columns (frame mode size chroma blocks bytes checksum : String) : String :=
  Text.padLeft 5 frame ++ "  " ++ Text.padRight 16 mode ++ " " ++ Text.padLeft 11 size ++ " " ++
    Text.padLeft 6 chroma ++ " " ++ Text.padLeft 7 blocks ++ " " ++ Text.padLeft 9 bytes ++ " " ++
    Text.padLeft 8 checksum ++ "\n"

def heading : String :=
  columns "Frame" "Mode" "Size" "Chroma" "Blocks" "Bytes" "XXH32"

def row (l : FrameListing) (number : Nat) : String :=
  let h := l.prologue.header
  columns (toString number) h.mode.name s!"{h.width}x{h.height}" h.chroma.name
    s!"{h.blocksW}x{h.blocksH}" (toString l.payloadBytes) (hexWord l.checksum)

/-- The name of a prediction rule. -/
def predictionName : Prediction → String
  | .average => "Average"
  | .weighted => "Weighted"

/-- Code lengths in hop index order, with a dash for an unused hop. -/
def lengthsText (t : CodeTable) : String :=
  ",".intercalate (Hop.all.map fun h =>
    match t.code? h with
    | some c => toString c.length
    | none => "-")

/-- The lines below a row in a verbose listing. -/
def details (l : FrameListing) : List String :=
  let h := l.prologue.header
  let tables := s!"       luma lengths [{lengthsText l.prologue.lumaTable}], " ++
    s!"chroma lengths [{lengthsText l.prologue.chromaTable}]\n"
  let quality := l.prologue.sampling.toList.map fun s => s!"       quality {s.quality}\n"
  s!"       ratio {h.ratio}, {predictionName h.prediction} prediction\n" :: tables :: quality

end FrameListing

namespace Job

/-- Everything a listing says about a container. -/
def listContainer (pow : Power) (path : String) : Job ContainerListing := do
  let data ← readInput path
  let entries ← lift (Container.read data)
  let frames ← lift (entries.mapM (FrameListing.ofEntry pow))
  return ⟨data.size, frames⟩

def printRows (number : Nat) : List FrameListing → Job Unit
  | [] => return ()
  | l :: rest => do
      print (l.row number)
      l.details.forM (note 3)
      printRows (number + 1) rest

/-- Print the listing of every container.  The first one that cannot be read ends the job. -/
def listFiles (pow : Power) : List String → Job Unit
  | [] => return ()
  | path :: rest => do
      let listing ← listContainer pow path
      print s!"{path}: {listing.frames.length} frame(s), {listing.fileBytes} bytes\n"
      print FrameListing.heading
      printRows 0 listing.frames
      listFiles pow rest

end Job

end HopCodec
