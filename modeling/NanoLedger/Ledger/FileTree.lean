import NanoLedger.Ledger.Path

/-!
# File trees

The directories and files below a working directory, and what a path means there. Of what lies above
the tree nothing is known but that each step up finds a directory.
-/

namespace NanoLedger

/-- The names on the way from the working directory to a file or a directory. -/
abbrev Trail := List String

/-- The directories and files below a working directory. -/
structure FileTree where
  directories : List Trail := []
  files : List (Trail × Option LedgerFile) := []

namespace FileTree

/-- What stands at the end of a trail. -/
def atTrail (tree : FileTree) (trail : Trail) : Place :=
  match tree.files.lookup trail with
  | some contents => .file contents
  | none => if trail.isEmpty ∨ tree.directories.contains trail then .directory else .nothing

/-- A place that a path leads to: inside the tree, or a directory above it. -/
inductive Spot where
  | inside (trail : Trail)
  | above
deriving DecidableEq, Repr

/-- What stands at a spot. -/
def atSpot (tree : FileTree) : Spot → Place
  | .inside trail => tree.atTrail trail
  | .above => .directory

/-- The spot one name down from a directory. Names above the tree are not known. -/
def down : Spot → String → Except IoFault Spot
  | spot, name =>
    if Path.isTooLong name then .error Path.nameTooLong
    else
      match spot with
      | .inside trail => .ok (.inside (trail ++ [name]))
      | .above => .error Path.noSuchFile

/-- The spot one step up from a directory. The step up from the working directory leaves the tree. -/
def up : Spot → Spot
  | .inside [] => .above
  | .inside (name :: trail) => .inside (name :: trail).dropLast
  | .above => .above

/-- Where a path starts: an absolute one above the tree, any other one in the working directory. -/
def origin (path : String) : Spot := if Path.isAbsolute path then .above else .inside []

/-- Go along names from a spot, and make each directory on the way that is missing. The spot at the
end comes with the tree. Nothing is made above the tree. -/
def makeWay (tree : FileTree) (spot : Spot) : List String → FileTree × Spot
  | [] => (tree, spot)
  | name :: rest =>
    match spot with
    | .above => makeWay tree .above rest
    | .inside trail =>
      if name = ".." then makeWay tree (up spot) rest
      else
        let trail := trail ++ [name]
        makeWay { tree with directories := trail :: tree.directories } (.inside trail) rest

/-- The tree with a directory and all directories on the way to it. -/
def addDirectory (tree : FileTree) (path : String) : FileTree :=
  (tree.makeWay (origin path) (Path.names path)).1

/-- The tree with a file and all directories on the way to it. -/
def addFile (tree : FileTree) (path : String) (contents : Option LedgerFile) : FileTree :=
  let names := Path.names path
  match tree.makeWay (origin path) names.dropLast, names.getLast? with
  | (tree, .inside trail), some name =>
    { tree with files := (trail ++ [name], contents) :: tree.files }
  | (tree, _), _ => tree

/-- Follow names from a spot. Every step needs a directory to start from. -/
def follow (tree : FileTree) (spot : Spot) : List String → Except IoFault Spot
  | [] => .ok spot
  | name :: rest =>
    match tree.atSpot spot with
    | .nothing => .error Path.noSuchFile
    | .file _ => .error Path.notDirectory
    | .directory => do
      let next ← if name = ".." then .ok (up spot) else down spot name
      follow tree next rest

/-- The spot that a path leads to; what stands there is left open. -/
def resolve (tree : FileTree) (path : String) : Except IoFault Spot :=
  if path = "" then .error Path.noSuchFile
  else if Path.longest < path.utf8ByteSize then .error Path.nameTooLong
  else tree.follow (origin path) (Path.names path)

/-- What a path leads to. -/
def place (tree : FileTree) (path : String) : Place :=
  match (tree.resolve path).map tree.atSpot with
  | .error _ => .nothing
  | .ok (.file contents) => if Path.demandsDirectory path then .nothing else .file contents
  | .ok other => other

/-- Why no file can be made at a path, if none can. -/
def creationFault? (tree : FileTree) (path : String) : Option IoFault :=
  Path.creationFault? path ((tree.resolve (Path.parent path)).map tree.atSpot) (tree.place path)

/-- The name under which a path makes a file in the tree: its way from the working directory. Where
something stands already no file is made. -/
def newName? (tree : FileTree) (path : String) : Option String :=
  match tree.resolve path with
  | .ok (.inside trail) =>
    match tree.atTrail trail with
    | .nothing => some (String.intercalate "/" trail)
    | _ => none
  | _ => none

end FileTree

end NanoLedger
