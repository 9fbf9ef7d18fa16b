/-
The tool on the files of the machine.  Everything a request may touch is looked up first, the run
itself is a function of what was found, and then its output is written and printed.
-/
import HopCodec.CommandLine.Run

namespace HopCodec

namespace Console

/-- A refusal of the system in its own words. -/
def refusalText (fault : IO.Error) : String :=
  match fault with
  | .noFileOrDirectory .. => FileFault.message .notFound
  | .permissionDenied _ code details | .resourceExhausted _ code details
  | .inappropriateType _ code details => s!"{details} (os error {code})"
  | .resourceBusy code details | .resourceVanished code details
  | .unsupportedOperation code details | .hardwareFault code details
  | .otherError code details => s!"{details} (os error {code})"
  | other => toString other

/-- The number that the system gives to an attempt to read a directory. -/
def directoryCode : UInt32 := 21

/-- What is found at a path, if anything. -/
def probe (path : String) : IO (Option FileNode) := do
  try
    return some (.file (← IO.FS.readBinFile path).data)
  catch fault =>
    match fault with
    | .noFileOrDirectory .. => return none
    | .inappropriateType _ code _ =>
        return if code = directoryCode then some .directory else none
    | _ => return some (.barred (refusalText fault))

/-- A path to a place. -/
def placePath (place : Place) : String :=
  match place with
  | "/" :: rest => "/" ++ "/".intercalate rest
  | names => "/".intercalate names

/-- Look up a path and every directory on the way to it. -/
def explore (tree : FileTree) (path : String) : IO FileTree := do
  let mut tree := tree
  let mut place : Place := []
  for name in Path.components path do
    place := if name = "/" then ["/"] else FileTree.enter place name
    if !FileTree.isBase place then
      if let some node ← probe (placePath place) then
        tree := tree.put place node
  return tree

/-- The paths that a request may touch. -/
def touchedPaths : Request → List String
  | .encode job => [job.input, job.output]
  | .decode job => [job.input, job.output]
  | .info files => files

def countCores : IO Nat := do
  try
    let text ← IO.FS.readFile "/proc/cpuinfo"
    return (text.splitOn "\n").countP fun line => line.startsWith "processor"
  catch _ => return 1

/-- What the tool knows of its surroundings. -/
def surroundings : IO Environment := do
  return {
    quality := ← IO.getEnv Environment.qualityVariable
    workers := ← IO.getEnv Environment.workersVariable
    cores := ← countCores }

/-- Write every file that a run has changed. -/
def writeChanges (before after : FileTree) : IO Unit := do
  for (place, node) in after.nodes do
    match node with
    | .file data =>
        if before.node? place ≠ some node then
          IO.FS.writeBinFile (placePath place) ⟨data⟩
    | _ => pure ()

/-- How the tool is used. -/
def usageText : String :=
  "usage: lhe [-v|-q] encode [OPTIONS] INPUT OUTPUT\n" ++
    "       lhe [-v|-q] decode [OPTIONS] INPUT OUTPUT\n" ++
    "       lhe [-v|-q] info FILES...\n"

/-- Do what an invocation asks on the files of the machine.  If a result cannot be written, its
message gives way to the refusal. -/
def serve (invocation : Invocation) : IO UInt32 := do
  let env ← surroundings
  let tree ← (touchedPaths invocation.request).foldlM explore FileTree.empty
  let start : Session := ⟨invocation.level, tree, "", ""⟩
  let (code, session) := CommandLine.runRequest Model.standard env invocation.request start
  try
    writeChanges tree session.tree
    IO.print session.stdout
    IO.eprint session.stderr
    return UInt32.ofNat code
  catch refusal =>
    let fault : Fault := .file (.system (refusalText refusal))
    IO.eprint (CommandLine.reported invocation.request fault start).stderr
    return 1

end Console

end HopCodec

open HopCodec in
def main (arguments : List String) : IO UInt32 := do
  match CommandLine.parse arguments with
  | .ok invocation => Console.serve invocation
  | .error .version =>
      IO.print CommandLine.versionLine
      return 0
  | .error .help =>
      IO.print Console.usageText
      return 0
  | .error _ =>
      IO.eprint Console.usageText
      return 2
