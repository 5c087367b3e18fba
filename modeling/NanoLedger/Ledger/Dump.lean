import NanoLedger.Ledger.File

/-!
# Dumps of ledger files

The text form of a ledger file, as `mdb_dump -a` writes it. Each table has a header, which names the
table in the line `database=` and ends in `HEADER=END`, and then, line by line and each after a
blank, keys and values in hexadecimal by turns, up to the line `DATA=END`. Tables of other names are
left out.
-/

namespace NanoLedger

namespace Dump

/-- How far a dump has been read. -/
structure State where
  tables : Tables := .empty
  /-- whether the lines are entries, and not those of a header -/
  inData : Bool := false
  /-- the name in the last header -/
  name : String := ""
  /-- the entries of the table that is being read, the last one first -/
  entries : List Entry := []
  /-- a key whose value has not been read yet -/
  key : Option Bytes := none

/-- What follows a given beginning of a line. -/
def after? (start line : String) : Option String :=
  if start.toList.isPrefixOf line.toList then
    some (String.ofList (line.toList.drop start.length))
  else none

/-- The tables with the one that has been read. -/
def State.close (s : State) : Tables :=
  match Table.ofName? s.name with
  | some t => s.tables.setTable t (KeyMap.ofList s.entries.reverse)
  | none => s.tables

/-- Read a line of entries. -/
def State.entryLine (s : State) (line : String) : Option State := do
  if line = "DATA=END" then
    if s.key.isSome then none else return { tables := s.close }
  else
    let digits ← after? " " line
    let bytes ← (Hex.decode digits).toOption
    match s.key with
    | none => return { s with key := some bytes }
    | some key => return { s with key := none, entries := ⟨key, bytes⟩ :: s.entries }

/-- Read a line of a header. -/
def State.headerLine (s : State) (line : String) : State :=
  if line = "HEADER=END" then { s with inData := true }
  else
    match after? "database=" line with
    | some name => { s with name }
    | none => s

/-- Read a line. -/
def State.line (s : State) (line : String) : Option State :=
  if s.inData then s.entryLine line else some (s.headerLine line)

/-- The ledger file of a dump, if the text is one. -/
def parse (text : String) : Option LedgerFile := do
  match (text.splitOn "\n").filter (· ≠ "") with
  | "VERSION=3" :: lines =>
    let s ← lines.foldlM State.line {}
    if s.inData then none else return { tables := s.tables }
  | _ => none

end Dump

end NanoLedger
