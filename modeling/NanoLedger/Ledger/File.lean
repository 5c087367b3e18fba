import NanoLedger.Log
import NanoLedger.Store.Tables

/-!
# Ledger files

A ledger file holds named tables, and possibly plain values under other names. A path leads to the
file itself or to the directory of a node that holds it (`LedgerFile.locate`). Opening a file looks
for each table in turn (`LedgerFile.openTables`): one that is absent is left out, and a plain value
under the name of a table is an error.
-/

namespace NanoLedger

/-- The contents of a ledger file. -/
structure LedgerFile where
  tables : Tables
  /-- the names under which plain values stand -/
  plainNames : List String := []

/-- What is found under a path. -/
inductive Place where
  | nothing
  | directory
  /-- a file, which need not be a ledger -/
  | file (contents : Option LedgerFile)

namespace LedgerFile

/-- The name of the ledger file in the directory of a node. -/
def defaultName : String := "data.ldb"

/-- The path of a file in a directory. -/
def inDirectory (directory name : String) : String :=
  if directory = "" then name
  else if directory.toList.getLast? = some '/' then directory ++ name
  else directory ++ "/" ++ name

/-- The path of the ledger file that a path leads to, and the contents of that file. -/
def locate (place : String → Place) (path : String) :
    Except LedgerError (String × Option LedgerFile) :=
  match place path with
  | .nothing => .error (.misuse ("ledger does not exist: " ++ path))
  | .file contents => .ok (path, contents)
  | .directory =>
    let file := inDirectory path defaultName
    match place file with
    | .file contents => .ok (file, contents)
    | _ => .error (.misuse ("no " ++ defaultName ++ " in " ++ path))

/-- Look for tables in turn. The log has a line for each one that is absent, up to the first name
that stands for a plain value. -/
def openTables (file : LedgerFile) : List Table → Except LedgerError Unit × List LogLine
  | [] => (.ok (), [])
  | t :: ts =>
    if file.plainNames.contains t.name then
      (.error ((LedgerError.ofStore .incompatible).join t.name), [])
    else
      let (result, log) := openTables file ts
      match file.tables.table? t with
      | some _ => (result, log)
      | none => (result, .debug ("table `" ++ t.name ++ "` not present in ledger") :: log)

/-- All tables of a file without plain values open. -/
theorem openTables_of_plainNames {file : LedgerFile} (h : file.plainNames = []) (ts : List Table) :
    (file.openTables ts).1 = .ok () := by
  induction ts with
  | nil => rfl
  | cons t ts ih =>
    rw [openTables, h]
    cases file.tables.table? t <;> exact ih

end LedgerFile

end NanoLedger
