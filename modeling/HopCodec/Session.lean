/-
A session with the tool: the file tree it works on and what it prints.  Messages carry the display
level from which on they are shown.
-/
import HopCodec.FileTree

namespace HopCodec

structure Session where
  /-- Messages above this level are not shown. -/
  level : Nat
  tree : FileTree
  stdout : String
  stderr : String

/-- A piece of work in a session.  What it printed and changed before a fault stays. -/
abbrev Job := EStateM Fault Session

namespace Job

def print (text : String) : Job Unit :=
  modify fun s => { s with stdout := s.stdout ++ text }

/-- Show a message from a level on. -/
def note (level : Nat) (text : String) : Job Unit :=
  modify fun s => if level ≤ s.level then { s with stderr := s.stderr ++ text } else s

/-- Continue with the result of a computation outside the session. -/
def lift {α : Type} : Except Fault α → Job α
  | .ok a => return a
  | .error fault => throw fault

def readInput (path : String) : Job Bytes := do
  let s ← get
  match s.tree.find path with
  | .ok .directory => throw (.argument .directoryInput)
  | _ => lift ((s.tree.read path).mapError Fault.file)

/-- Create an output file, or empty the one that is there.  Nothing may be there unless it is to be
overwritten. -/
def openOutput (path : String) (overwrite : Bool) : Job Place := do
  let s ← get
  if !overwrite && s.tree.hasPath path then throw (.file (.alreadyExists path))
  let place ← lift ((s.tree.outputPlace path).mapError Fault.file)
  set { s with tree := s.tree.put place (.file #[]) }
  return place

/-- Write behind the end of a file. -/
def append (p : Place) (data : Bytes) : Job Unit :=
  modify fun s => { s with tree := s.tree.append p data }

def writeOutput (path : String) (data : Bytes) (overwrite : Bool) : Job Unit := do
  let place ← openOutput path overwrite
  append place data

end Job

end HopCodec
