import NanoLedger.Ledger.File

/-!
# Paths

A path is a text of names with slashes between them. Where a file is to be made, all that stands
before the last name has to be a directory, and the last name must neither demand a directory nor be
one (`Path.creationFault?`). Names and whole paths have greatest lengths, counted in bytes.
-/

namespace NanoLedger

namespace Path

/-- The most bytes that a name has. -/
def longestName : Nat := 255

/-- The most bytes that a path has. -/
def longest : Nat := 4095

/-- A part of the path is missing. -/
def noSuchFile : IoFault := { text := "No such file or directory (os error 2)" }

/-- A part of the path that has to be a directory is a file. -/
def notDirectory : IoFault := { text := "Not a directory (os error 20)" }

/-- A directory stands where a file is to be made. -/
def isDirectory : IoFault := { text := "Is a directory (os error 21)" }

/-- The path or one of its names has too many bytes. -/
def nameTooLong : IoFault := { text := "File name too long (os error 36)" }

/-- The names in a path, without empty ones and dots. -/
def names (path : String) : List String :=
  (path.splitOn "/").filter fun name => name ≠ "" ∧ name ≠ "."

/-- Whether a path starts at the root of all directories. -/
def isAbsolute (path : String) : Bool := path.toList.head? = some '/'

/-- Whether a name has too many bytes. -/
def isTooLong (name : String) : Bool := longestName < name.utf8ByteSize

/-- Whether a path ends in a slash or in dots, so that only a directory can stand there. -/
def demandsDirectory (path : String) : Bool :=
  match (path.splitOn "/").getLast? with
  | some name => name = "" ∨ name = "." ∨ name = ".."
  | none => false

/-- The path of the directory in which a path makes a file: all that stands before its last name. -/
def parent (path : String) : String :=
  let above := (path.toList.reverse.dropWhile (· = '/')).dropWhile (· ≠ '/')
  match above.dropWhile (· = '/') with
  | [] => if above.isEmpty then "." else "/"
  | chars => String.ofList chars.reverse

/-- Why no file can be made at a path, if none can, given what stands at the path of its directory
and at the path itself. -/
def creationFault? (path : String) (above : Except IoFault Place) (here : Place) :
    Option IoFault :=
  if path = "" then some noSuchFile
  else if longest < path.utf8ByteSize then some nameTooLong
  else
    match above, here with
    | .error fault, _ => some fault
    | .ok .nothing, _ => some noSuchFile
    | .ok (.file _), _ => some notDirectory
    | .ok .directory, .directory => some isDirectory
    | .ok .directory, _ =>
      if demandsDirectory path then some isDirectory
      else if (names path).any isTooLong then some nameTooLong
      else none

end Path

end NanoLedger
