/-
Requests: what a command line asks the tool to do.
-/
import HopCodec.CommandLine.Environment
import HopCodec.CommandLine.Options
import HopCodec.CommandLine.Size

namespace HopCodec

/-- An option as given. -/
inductive CommandOption
  | verbose
  | quiet
  | mode (mode : FrameMode)
  | blocks (width height : UInt8)
  | quality (quality : UInt8)
  | ratio (ratio : UInt8)
  | weighted
  | chroma (chroma : ChromaFormat)
  | size (width height : Nat)
  | workers (count : Nat)
  | sequential
  | force
deriving DecidableEq, Repr

/-- The commands that work on files. -/
inductive Verb
  | encode
  | decode
  | info
deriving DecidableEq, Repr

/-- Input and output of a job, and the options given for it. -/
structure FileRequest where
  input : String
  output : String
  options : List CommandOption
deriving DecidableEq, Repr

/-- A job for the tool. -/
inductive Request
  | encode (job : FileRequest)
  | decode (job : FileRequest)
  | info (files : List String)
deriving DecidableEq, Repr

/-- A job and the display level it runs at. -/
structure Invocation where
  level : Nat
  request : Request
deriving DecidableEq, Repr

namespace CommandLine

/-- Read a value from a fixed list of words. -/
def readWord {α : Type} (words : List (String × α)) (text : String) : Except UsageFault α :=
  match words.lookup text with
  | some a => .ok a
  | none => .error .invalidValue

def readMode (text : String) : Except UsageFault CommandOption :=
  (readWord [("sequential", .sequential), ("parallel", .parallel), ("advanced", .advanced)]
    text).map CommandOption.mode

def readChroma (text : String) : Except UsageFault CommandOption :=
  (readWord [("420", .yuv420), ("422", .yuv422), ("444", .yuv444)] text).map
    CommandOption.chroma

/-- Read a number from `low` to `high`.  A sign may stand before it. -/
def readByte (low high : Nat) (text : String) : Except UsageFault UInt8 :=
  let value := match text.toList with
    | '-' :: digits =>
        if digits.head? = some '+' then none
        else
          (Text.wholeNumber? ((1 <<< 63) + 1) digits).bind fun n => if n = 0 then some 0 else none
    | chars => Text.wholeNumber? (1 <<< 63) chars
  match value with
  | some n => if low ≤ n ∧ n ≤ high then .ok (UInt8.ofNat n) else .error .badValue
  | none => .error .badValue

def readQuality (text : String) : Except UsageFault CommandOption :=
  (readByte 0 Settings.qualityMax.toNat text).map CommandOption.quality

def readRatio (text : String) : Except UsageFault CommandOption :=
  (readByte Predictor.ratioMin Predictor.ratioMax text).map CommandOption.ratio

def readWorkers (text : String) : Except UsageFault CommandOption :=
  match Text.wholeNumber? (1 <<< 64) text.toList with
  | some n => .ok (.workers n)
  | none => .error .badValue

def readSize (text : String) : Except UsageFault CommandOption :=
  match Size.parse text with
  | .ok (width, height) => .ok (.size width height)
  | .error _ => .error .badValue

def readBlocks (text : String) : Except UsageFault CommandOption :=
  match Size.parseBlocks text with
  | .ok (width, height) => .ok (.blocks width height)
  | .error _ => .error .badValue

/-- The options of every command. -/
def commonOptions : List (OptionRule CommandOption) :=
  [⟨some 'v', "verbose", .flag .verbose true⟩,
    ⟨some 'q', "quiet", .flag .quiet true⟩,
    ⟨some 'h', "help", .help⟩]

/-- The options of the commands that code pixels. -/
def codecOptions : List (OptionRule CommandOption) :=
  [⟨some 'T', "workers", .value readWorkers⟩,
    ⟨none, "sequential", .flag .sequential false⟩,
    ⟨some 'f', "force", .flag .force false⟩]

def encodeOptions : List (OptionRule CommandOption) :=
  [⟨some 'm', "mode", .value readMode⟩,
    ⟨some 'b', "blocks", .value readBlocks⟩,
    ⟨none, "quality", .value readQuality⟩,
    ⟨none, "ratio", .value readRatio⟩,
    ⟨none, "weighted", .flag .weighted false⟩,
    ⟨none, "chroma", .value readChroma⟩,
    ⟨none, "size", .value readSize⟩]

/-- What may stand before the command. -/
def topGrammar : ArgumentGrammar CommandOption :=
  ⟨⟨some 'V', "version", .version⟩ :: commonOptions, 0, false⟩

def grammar : Verb → ArgumentGrammar CommandOption
  | .encode => ⟨encodeOptions ++ codecOptions ++ commonOptions, 2, false⟩
  | .decode => ⟨codecOptions ++ commonOptions, 2, false⟩
  | .info => ⟨commonOptions, 1, true⟩

def verb? (text : String) : Option Verb :=
  match text with
  | "encode" => some .encode
  | "decode" => some .decode
  | "info" => some .info
  | _ => none

/-- Help for a command shows only if the words after `help` name one and nothing else. -/
def helpFault : List String → UsageFault
  | [] => .help
  | [word] => if (verb? word).isSome || word = "help" then .help else .unknownCommand
  | _ => .unknownCommand

/-- The words before the command, the command and the words after it. -/
def splitVerb (escaped : Bool) (a : Arguments CommandOption) :
    List String → Except UsageFault (Arguments CommandOption × Verb × List String)
  | [] => .error (if a.given.isEmpty then .helpForNothing else .missingCommand)
  | text :: rest =>
      if escaped then
        .error (if (verb? text).isSome || text = "help" then .unknownArgument
          else .unknownCommand)
      else
        match verb? text, Arguments.shape text with
        | some verb, _ => .ok (a, verb, rest)
        | none, .escape => splitVerb true a rest
        | none, .name name value => do splitVerb false (← a.readName topGrammar name value) rest
        | none, .letters letters => do splitVerb false (← a.readLetters topGrammar letters) rest
        | none, .plain => .error (if text = "help" then helpFault rest else .unknownCommand)

/-- Further repetitions of an option are not counted. -/
def countMax : Nat := 255

/-- How often an option was given.  The words after the command count, if it is among them. -/
def countAfter (before after : List CommandOption) (option : CommandOption) : Nat :=
  min (if option ∈ after then after.count option else before.count option) countMax

/-- The display level: two, plus one for each request to say more and less one for each request to
say less, from zero to four. -/
def displayLevel (before after : List CommandOption) : Nat :=
  let more := countAfter before after .verbose
  let less := countAfter before after .quiet
  min (2 + more - less) 4

/-- The request of a command and its arguments. -/
def requestOf (verb : Verb) (a : Arguments CommandOption) : Request :=
  let job : FileRequest := ⟨a.operands.getD 0 "", a.operands.getD 1 "", a.options⟩
  match verb with
  | .encode => .encode job
  | .decode => .decode job
  | .info => .info a.operands

/-- What a list of arguments asks for. -/
def parse (arguments : List String) : Except UsageFault Invocation := do
  let (before, verb, rest) ← splitVerb false .empty arguments
  let after ← Arguments.parse (grammar verb) rest
  return ⟨displayLevel before.options after.options, requestOf verb after⟩

end CommandLine

namespace FileRequest

/-- Whether an existing output file is to be replaced. -/
def overwrite (r : FileRequest) : Bool :=
  .force ∈ r.options

/-- The frame size given for raw input. -/
def size? (r : FileRequest) : Option (Nat × Nat) :=
  r.options.findSome? fun
    | .size width height => some (width, height)
    | _ => none

/-- Settings with one option applied. -/
def applyOption (s : Settings) : CommandOption → Settings
  | .mode mode => { s with mode }
  | .blocks width height => s.withBlocks width height
  | .quality quality => s.withQuality quality
  | .ratio ratio => { s with ratio }
  | .weighted => { s with prediction := .weighted }
  | .chroma chroma => { s with chroma }
  | .workers count => s.withWorkers count
  | .sequential => { s with execution := .sequential }
  | _ => s

def givesQuality (r : FileRequest) : Bool :=
  r.options.any fun
    | .quality _ => true
    | _ => false

def givesWorkers (r : FileRequest) : Bool :=
  r.options.any fun
    | .workers _ => true
    | _ => false

/-- The settings of a decoding job, and messages about the environment.  An option wins over the
environment. -/
def decodeSettings (r : FileRequest) (env : Environment) : Settings × List String :=
  let (workers, notes) :=
    if r.givesWorkers then (0, []) else Environment.defaultWorkers env.workers
  (r.options.foldl applyOption (({} : Settings).withWorkers workers), notes)

/-- The settings of a coding job, and messages about the environment. -/
def encodeSettings (r : FileRequest) (env : Environment) : Settings × List String :=
  let (quality, qualityNotes) :=
    if r.givesQuality then (50, []) else Environment.defaultQuality env.quality
  let (workers, workersNotes) :=
    if r.givesWorkers then (0, []) else Environment.defaultWorkers env.workers
  (r.options.foldl applyOption ((({} : Settings).withQuality quality).withWorkers workers),
    qualityNotes ++ workersNotes)

end FileRequest

end HopCodec
