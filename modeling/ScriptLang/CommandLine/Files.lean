import ScriptLang.Assoc

/-!
# Files

A file system as the places it has, and what a path leads to.  A path is followed name by name, so the first obstacle on
the way decides: a name behind a file, a name that is too long, or a place that does not exist.
-/

namespace ScriptLang.CommandLine

/-- What a path leads to. -/
inductive Entry
  | missing
  | directory
  /-- A path that goes through something that is no directory. -/
  | notDirectory
  /-- A path that is too long, or has a name in it that is. -/
  | tooLong
  | file (bytes : List UInt8)
deriving DecidableEq, Repr

/-- A place: the names that lead there from the root, the last name first. -/
abbrev Location : Type := List String

/-- What a place holds. -/
inductive Node
  | directory
  | file (bytes : List UInt8)
deriving DecidableEq, Repr

/-- The places of a file system, and the one where paths start that do not start at the root. -/
structure Files where
  here : Location
  nodes : Assoc Location Node

/-- The names in a path, with a slash between each two; a slash at either end leaves an empty name there. -/
def pathNames : List Char → List (List Char)
  | [] => [[]]
  | c :: path =>
    if c = '/' then [] :: pathNames path
    else
      match pathNames path with
      | [] => [[c]]
      | name :: names => (c :: name) :: names

/-- The most bytes that a name may have. -/
def maxName : Nat := 255

/-- The most bytes that a path may have. -/
def maxPath : Nat := 4095

namespace Files

/-- The places with a file put next to where paths start. -/
def put (files : Files) (name : String) (bytes : List UInt8) : Files :=
  { files with nodes := Assoc.set files.nodes (name :: files.here) (.file bytes) }

/-- What is found behind a place under some names.  An empty name and one dot stay at a place, two dots leave it. -/
def follow (files : Files) : Location → List String → Entry
  | place, [] =>
    match Assoc.get? files.nodes place with
    | none => .missing
    | some .directory => .directory
    | some (.file bytes) => .file bytes
  | place, name :: names =>
    match Assoc.get? files.nodes place with
    | none => .missing
    | some (.file _) => .notDirectory
    | some .directory =>
      if name = "" || name = "." then files.follow place names
      else if name = ".." then files.follow place.tail names
      else if maxName < name.utf8ByteSize then .tooLong
      else files.follow (name :: place) names

/-- What a path leads to. -/
def entry (files : Files) (path : String) : Entry :=
  if maxPath < path.utf8ByteSize then .tooLong
  else
    let start := if path.toList.head? = some '/' then [] else files.here
    files.follow start ((pathNames path.toList).map String.ofList)

end Files

end ScriptLang.CommandLine
