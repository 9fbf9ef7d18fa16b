/-
File paths as text.  Components are set apart by slashes; empty components and single dots name
nothing.
-/

namespace HopCodec

namespace Path

/-- The pieces of a list of characters between slashes. -/
def pieces : List Char → List (List Char)
  | [] => [[]]
  | c :: rest =>
      if c = '/' then [] :: pieces rest
      else
        match pieces rest with
        | [] => [[c]]
        | piece :: more => (c :: piece) :: more

/-- The components of a path that name something, with `/` first if the path is absolute. -/
def components (path : String) : List String :=
  let chars := path.toList
  let names := ((pieces chars).map String.ofList).filter fun name => name ≠ "" && name ≠ "."
  if chars.head? = some '/' then "/" :: names else names

/-- What the end of a path demands of the place that it leads to. -/
inductive Ending
  /-- The path ends in a name. -/
  | name
  /-- The path ends in a slash: the place can only be a directory. -/
  | slash
  /-- The path ends in a dot: the place is entered, and so must be a directory already. -/
  | dot
deriving DecidableEq, Repr

def ending (path : String) : Ending :=
  let pieces := pieces path.toList
  if (pieces.filter (· ≠ [])).getLast? = some ['.'] then .dot
  else if pieces.getLast? = some [] then .slash
  else .name

/-- The last component, if it is the name of something inside a directory. -/
def fileName? (path : String) : Option String :=
  match (components path).getLast? with
  | some name => if name = "/" || name = ".." then none else some name
  | none => none

/-- The part of a file name after its last dot.  A dot in front of the name does not count. -/
def extension? (path : String) : Option String := do
  let name ← fileName? path
  let reversed := name.toList.reverse
  let extension := reversed.takeWhile (· ≠ '.')
  let stem := (reversed.drop extension.length).drop 1
  if stem.isEmpty then none else some (String.ofList extension.reverse)

end Path

end HopCodec
