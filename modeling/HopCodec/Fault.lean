/-
Everything that can go wrong, as causes.  A cause carries the data its wording needs and nothing
else; the wording itself is in one `message` function per family.
-/

namespace HopCodec

/-- Why a frame header, quality byte or relevance mesh is refused. -/
inductive HeaderFault
  | unknownMode
  | unknownChroma
  | zeroDimension
  | dimensionTooLarge
  | tooManyPixels
  | noBlocks
  | gridNotSingle
  | ratioOutOfRange
  | weightedOutsideSequential
  | emptyBlock
  | blockTooSmall
  | qualityTooHigh
  | relevanceOutOfRange
deriving DecidableEq, Repr

def HeaderFault.message : HeaderFault → String
  | unknownMode => "unknown frame mode"
  | unknownChroma => "unknown chroma format"
  | zeroDimension => "zero frame dimension"
  | dimensionTooLarge => "frame dimension too large"
  | tooManyPixels => "frame has too many pixels"
  | noBlocks => "block grid has no blocks"
  | gridNotSingle => "basic-sequential frames use a 1x1 grid"
  | ratioOutOfRange => "ratio outside [20, 40]"
  | weightedOutsideSequential => "weighted prediction outside basic-sequential mode"
  | emptyBlock => "block grid produces an empty block"
  | blockTooSmall => "block smaller than the minimum side"
  | qualityTooHigh => "quality above 99"
  | relevanceOutOfRange => "relevance level out of range"

/-- Why a set of codewords is no code, or a bit pattern no codeword. -/
inductive TableFault
  | listedTwice
  | lengthOutOfRange
  | codeTooWide
  | noUsedSymbol
  | duplicateCode
  | prefixCode
  | overSubscribed
  | noMatch
deriving DecidableEq, Repr

def TableFault.message : TableFault → String
  | listedTwice => "symbol listed twice"
  | lengthOutOfRange => "code length out of range"
  | codeTooWide => "code wider than its length"
  | noUsedSymbol => "no used symbol"
  | duplicateCode => "duplicate code"
  | prefixCode => "code is a prefix of another"
  | overSubscribed => "over-subscribed code lengths"
  | noMatch => "bit pattern matches no code"

/-- Why the arguments of a call do not fit together. -/
inductive ArgumentFault
  /-- The frame asked for would need a header that no reader accepts. -/
  | header (fault : HeaderFault)
  | emptyBlock
  | narrowStride
  | shortPixelBuffer
  | hopCount
  | hopAbsent
  | meshMismatch
  | frameTooWide
  | frameTooTall
  | meshForBasicMode
  | weightedNeedsSequential
  | planeStride
  | planeBuffer
  | chromaSize
  | shortRgb
  | tooManyFrames
  | payloadTooLarge
  | yuvIsNotPnm
  | yuvNeedsSize
  | yuvInputNeedsSize
  | directoryInput
  | singleFrameOutput
deriving DecidableEq, Repr

def ArgumentFault.message : ArgumentFault → String
  | header fault => fault.message
  | emptyBlock => "empty block"
  | narrowStride => "stride smaller than block width"
  | shortPixelBuffer => "pixel buffer smaller than block"
  | hopCount => "hop count does not match block size"
  | hopAbsent => "hop absent from Huffman table"
  | meshMismatch => "relevance mesh does not match block grid"
  | frameTooWide => "frame too wide"
  | frameTooTall => "frame too tall"
  | meshForBasicMode => "relevance mesh given for a basic-mode frame"
  | weightedNeedsSequential => "weighted prediction requires basic-sequential mode"
  | planeStride => "stride smaller than width"
  | planeBuffer => "plane buffer too small"
  | chromaSize => "chroma plane size does not match format"
  | shortRgb => "RGB buffer smaller than image"
  | tooManyFrames => "too many frames for one container"
  | payloadTooLarge => "frame payload larger than 4 GiB"
  | yuvIsNotPnm => "raw YUV is not a PNM format"
  | yuvNeedsSize => "raw YUV needs a frame size"
  | yuvInputNeedsSize => "raw YUV input needs --size WxH"
  | directoryInput => "input is a directory"
  | singleFrameOutput => "PGM/PPM output holds exactly one frame; use .yuv for sequences"

/-- Why a file's bytes are not in a format that is read here. -/
inductive FormatFault
  | notContainer
  | trailingBytes (count : Nat)
  | headerEndsEarly
  | notANumber
  /-- The quoted text is the magic that was found. -/
  | badMagic (quoted : String)
  | badMaxval (maxval : Nat)
  | noPixels
  | imageTooLarge
  | yuvSize (size frameSize : Nat)
  | unknownImage (path : String)
  | noFrame
deriving DecidableEq, Repr

def FormatFault.message : FormatFault → String
  | notContainer => "not an LHE container"
  | trailingBytes count => s!"{count} trailing bytes after the last frame"
  | headerEndsEarly => "PNM header ends early"
  | notANumber => "PNM header field is not a number"
  | badMagic quoted => s!"PNM magic {quoted} (only P5 and P6 are read)"
  | badMaxval maxval => s!"PNM maxval {maxval} (only 255 is read)"
  | noPixels => "PNM image has no pixels"
  | imageTooLarge => "PNM image too large"
  | yuvSize size frameSize =>
      s!"raw YUV size {size} is not a multiple of the {frameSize}-byte frame"
  | unknownImage path => s!"cannot tell the image format of {path}"
  | noFrame => "input holds no frame"

/-- Why a file cannot be read or written. -/
inductive FileFault
  | notFound
  | notADirectory
  | isADirectory
  | alreadyExists (path : String)
  | nameTooLong
  | zeroCharacter
  /-- Any other refusal, in the words of the system. -/
  | system (text : String)
deriving DecidableEq, Repr

def FileFault.message : FileFault → String
  | notFound => "No such file or directory (os error 2)"
  | notADirectory => "Not a directory (os error 20)"
  | isADirectory => "Is a directory (os error 21)"
  | alreadyExists path => s!"{path} already exists (use --force to overwrite)"
  | nameTooLong => "File name too long (os error 36)"
  | zeroCharacter => "file name contained an unexpected NUL byte"
  | system text => text

/-- A failed operation.  No partly decoded frame comes with it. -/
inductive Fault
  | header (fault : HeaderFault)
  | table (fault : TableFault)
  | truncated
  | allocation (bytes : Nat)
  | argument (fault : ArgumentFault)
  | checksum (stored computed : UInt32)
  | format (fault : FormatFault)
  | file (fault : FileFault)
deriving DecidableEq, Repr

/-- A 32-bit word as eight upper-case hexadecimal digits. -/
def hexWord (word : UInt32) : String :=
  let digits := (Nat.toDigits 16 word.toNat).map Char.toUpper
  String.ofList (List.replicate (8 - digits.length) '0' ++ digits)

/-- The stable name of the kind of fault, shown in diagnostics. -/
def Fault.kind : Fault → String
  | header _ => "ERROR_malformedHeader"
  | table _ => "ERROR_invalidHuffmanTable"
  | truncated => "ERROR_truncatedBitstream"
  | allocation _ => "ERROR_allocationFailed"
  | argument _ => "ERROR_invalidArgument"
  | checksum _ _ => "ERROR_checksumMismatch"
  | format _ => "ERROR_unsupportedFormat"
  | file _ => "ERROR_io"

def Fault.message : Fault → String
  | header fault => s!"malformed frame header: {fault.message}"
  | table fault => s!"invalid Huffman table: {fault.message}"
  | truncated => "truncated bitstream"
  | allocation bytes => s!"allocation of {bytes} bytes failed"
  | argument fault => s!"invalid argument: {fault.message}"
  | checksum stored computed =>
      s!"frame checksum mismatch: stored {hexWord stored}, computed {hexWord computed}"
  | format fault => s!"unsupported format: {fault.message}"
  | file fault => s!"I/O error: {fault.message}"

/-- A header fault found while encoding is a fault of the caller's arguments. -/
def Fault.asArgument : Fault → Fault
  | header fault => argument (.header fault)
  | other => other

/-- The messages of a fault and of what caused it, outermost first. -/
def Fault.chain : Fault → List String
  | file fault => [(Fault.file fault).message, fault.message]
  | other => [other.message]

end HopCodec
