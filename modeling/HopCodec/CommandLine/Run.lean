/-
Running the tool on a file tree.
-/
import HopCodec.CommandLine.Request
import HopCodec.Job.Decoding
import HopCodec.Job.Encoding
import HopCodec.Job.Listing

namespace HopCodec

def toolName : String := "lhe"

def versionNumber : Nat := 300

def versionText : String := "0.3.0"

/-- The usual ending of a container's name. -/
def containerSuffix : String := ".lhe"

namespace CommandLine

/-- The greeting of a verbose session. -/
def welcome (env : Environment) (s : Settings) : String :=
  s!"*** {toolName} v{versionText} 64-bit, " ++
    s!"{Environment.effectiveWorkers env.cores s.workers} worker(s) ***\n"

def settingsNote (s : Settings) : String :=
  s!"mode {s.mode.name}, blocks {s.blocksW}x{s.blocksH}, ratio {s.ratio}, " ++
    s!"quality {s.quality}, chroma {s.chroma.name}\n"

def suffixNote : String :=
  s!"warning: output name does not end with {containerSuffix}\n"

def perform (model : Model) (env : Environment) : Request → Job Unit
  | .encode job => do
      let (settings, notes) := job.encodeSettings env
      notes.forM (Job.note 2)
      Job.note 3 (welcome env settings)
      Job.note 4 (settingsNote settings)
      if !job.output.endsWith containerSuffix then Job.note 2 suffixNote
      let _ ← Job.encodeFile model settings job.input job.output job.size? job.overwrite
  | .decode job => do
      let (settings, notes) := job.decodeSettings env
      notes.forM (Job.note 2)
      Job.note 3 (welcome env settings)
      let _ ← Job.decodeFile model settings job.input job.output job.overwrite
  | .info files => Job.listFiles model.pow files

/-- What the tool was doing when a fault arose. -/
def activity : Request → String
  | .encode job => s!"encoding {job.input} into {job.output}"
  | .decode job => s!"decoding {job.input} into {job.output}"
  | .info _ => s!"listing {containerSuffix} files"

/-- Report a fault with what was being done and what caused it. -/
def report (request : Request) (fault : Fault) : Job Unit := do
  Job.note 1 (s!"{toolName}: " ++ ": ".intercalate (activity request :: fault.chain) ++ "\n")
  Job.note 3 s!"{toolName}: {fault.kind}\n"

/-- A session after a fault has been reported in it. -/
def reported (request : Request) (fault : Fault) (s : Session) : Session :=
  match (report request fault).run s with
  | .ok _ s => s
  | .error _ s => s

/-- Do what is asked, reporting a fault.  The exit code tells whether there was one. -/
def runRequest (model : Model) (env : Environment) (request : Request) (s : Session) :
    Nat × Session :=
  match (perform model env request).run s with
  | .ok _ s => (0, s)
  | .error fault s => (1, reported request fault s)

/-- What the tool prints about its version. -/
def versionLine : String :=
  s!"{toolName} {versionText}\n"

/-- How a run of the tool ends. -/
inductive Ending
  | finished (code : Nat) (session : Session)
  /-- The arguments were no request to do work. -/
  | usage (fault : UsageFault)

/-- Run the tool with a list of arguments on a file tree. -/
def run (model : Model) (env : Environment) (tree : FileTree) (arguments : List String) :
    Ending :=
  match parse arguments with
  | .ok invocation =>
      let (code, s) := runRequest model env invocation.request ⟨invocation.level, tree, "", ""⟩
      .finished code s
  | .error .version => .finished 0 ⟨0, tree, versionLine, ""⟩
  | .error fault => .usage fault

end CommandLine

end HopCodec
