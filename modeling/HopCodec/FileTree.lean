/-
Files and directories as a value.  Places are lists of names from the working directory on; a
path is resolved name by name, and every name but the last must lead to a directory.
-/
import HopCodec.Fault
import HopCodec.Raster
import HopCodec.Text.Path

namespace HopCodec

/-- What is found at a place.  A barred place is one the system refuses, in its own words. -/
inductive FileNode
  | file (data : Bytes)
  | directory
  | barred (text : String)
deriving DecidableEq, Repr

/-- Names from the working directory on.  `/` in front marks a place below the root. -/
abbrev Place := List String

/-- A file tree: what is known to be at which place. -/
structure FileTree where
  nodes : List (Place × FileNode)
deriving DecidableEq, Repr

namespace FileTree

def empty : FileTree :=
  ⟨[]⟩

/-- Places that are directories in every tree: the working directory, the directories above it and
the root. -/
def isBase (p : Place) : Bool :=
  p = ["/"] || p.all (· = "..")

def node? (t : FileTree) (p : Place) : Option FileNode :=
  if isBase p then some .directory else t.nodes.lookup p

/-- Put a node at a place, instead of what was there. -/
def put (t : FileTree) (p : Place) (node : FileNode) : FileTree :=
  ⟨(p, node) :: t.nodes.filter fun entry => entry.1 ≠ p⟩

/-- Write behind the end of the file at a place. -/
def append (t : FileTree) (p : Place) (data : Bytes) : FileTree :=
  match t.node? p with
  | some (.file before) => t.put p (.file (before ++ data))
  | _ => t

/-- Go from a directory to what a name leads to. -/
def enter (p : Place) (name : String) : Place :=
  if name = ".." then
    match p.getLast? with
    | none => [".."]
    | some ".." => p ++ [".."]
    | some "/" => p
    | some _ => p.dropLast
  else p ++ [name]

/-- The most bytes of a name. -/
def nameMax : Nat := 255

/-- The most bytes of a path. -/
def pathMax : Nat := 4095

/-- Follow names, each from a directory. -/
def follow (t : FileTree) (p : Place) : List String → Except FileFault Place
  | [] => .ok p
  | name :: rest =>
      match t.node? p with
      | some .directory =>
          if nameMax < name.utf8ByteSize then .error .nameTooLong
          else follow t (enter p name) rest
      | some (.file _) => .error .notADirectory
      | some (.barred text) => .error (.system text)
      | none => .error .notFound

/-- The place that a path leads to.  Nothing needs to be there. -/
def resolve (t : FileTree) (path : String) : Except FileFault Place :=
  if path.toList.contains '\x00' then .error .zeroCharacter
  else if path.isEmpty then .error .notFound
  else if pathMax < path.utf8ByteSize then .error .nameTooLong
  else
    match Path.components path with
    | "/" :: rest => t.follow ["/"] rest
    | names => t.follow [] names

/-- What a path leads to. -/
def find (t : FileTree) (path : String) : Except FileFault FileNode := do
  let p ← t.resolve path
  match t.node? p with
  | none => throw .notFound
  | some (.file data) =>
      if Path.ending path = .name then return .file data else throw .notADirectory
  | some node => return node

def hasPath (t : FileTree) (path : String) : Bool :=
  match t.find path with
  | .ok _ => true
  | .error _ => false

def read (t : FileTree) (path : String) : Except FileFault Bytes := do
  match ← t.find path with
  | .file data => return data
  | .directory => throw .isADirectory
  | .barred text => throw (.system text)

/-- The place of a file to be created or replaced.  A path that ends in a slash is no name for a
file, whatever it leads to. -/
def outputPlace (t : FileTree) (path : String) : Except FileFault Place := do
  let p ← t.resolve path
  match t.node? p, Path.ending path with
  | some .directory, _ => throw .isADirectory
  | some (.barred text), _ => throw (.system text)
  | _, .slash => throw .isADirectory
  | some (.file _), .dot => throw .notADirectory
  | none, .dot => throw .notFound
  | _, .name => return p

def files (t : FileTree) : List (String × Bytes) :=
  t.nodes.filterMap fun (p, node) =>
    match node with
    | .file data => some ("/".intercalate p, data)
    | _ => none

/-- A tree of files and directories given by path.  Directories above them come along. -/
def ofLists (files : List (String × Bytes)) (directories : List String) : FileTree :=
  let above (p : Place) : List Place := (List.range p.length).map fun n => p.take n
  let withParents (t : FileTree) (p : Place) : FileTree :=
    (above p).foldl (fun t q => if isBase q then t else t.put q .directory) t
  let t := directories.foldl
    (fun t path =>
      let p := Path.components path
      (withParents t p).put p .directory) empty
  files.foldl
    (fun t (path, data) =>
      let p := Path.components path
      (withParents t p).put p (.file data)) t

end FileTree

end HopCodec
