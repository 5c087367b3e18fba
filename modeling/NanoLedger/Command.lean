import NanoLedger.Command.Arguments
import NanoLedger.Export
import NanoLedger.Ledger

/-!
# The export command

The command opens a ledger and writes tables as JSON lines, one after another into one output, or
each table in shards into files of their own. What it does to the world is collected as a value
(`Command.Outcome`): exit code, standard output, log and files. What was written before an error
stays.
-/

namespace NanoLedger

namespace Command

/-- What the command finds around it. -/
structure Surroundings where
  /-- what a path leads to -/
  place : String → Place
  /-- why no file can be made at a path, if none can -/
  creationFault? : String → Option IoFault
  /-- why no pool of a number of threads can be built, if none can -/
  poolFault? : Nat → Option String
  processors : Nat

/-- What the command does. -/
structure Outcome where
  exit : Nat
  stdout : String := ""
  log : List LogLine := []
  /-- the files that were made, and their texts -/
  files : List (String × String) := []

/-- What a running command has written: the text of its one output, the files of its shards, and
its log. -/
structure Written where
  lines : JsonLines := {}
  shardFiles : List (String × String) := []
  log : List LogLine := []

/-- Where records go. -/
inductive Target where
  /-- all tables into one text, for standard output or for a file -/
  | single
  /-- each table into the given number of files, whose names begin with the given path -/
  | sharded (path : String) (shards : Nat)

/-- The options of the passes. -/
def passOptions (a : Arguments) : Except LedgerError PassOptions := do
  let options ← match a.key with
    | some key => PassOptions.ofHexKey key
    | none => pure {}
  return { options with limit := a.count }

/-- The tables to export, in order. -/
def tables (a : Arguments) : Except LedgerError (List Table) :=
  match a.table.getD "all" with
  | "all" => .ok [.accounts, .blocks]
  | name => return [← Table.ofName name]

/-- Make a file, as long as it can be made. -/
def create (env : Surroundings) (path : String) : Except LedgerError Unit :=
  match env.creationFault? path with
  | none => .ok ()
  | some fault => .error ((LedgerError.ofIo fault).join ("creating " ++ path))

/-- The number of shards that are asked for; zero means one for each processor. -/
def shardCount (env : Surroundings) (a : Arguments) : Option Nat :=
  a.shards.map fun n => if n = 0 then env.processors else n

/-- Where the records go. A single file is made at once. -/
def target (env : Surroundings) (a : Arguments) : Except LedgerError Target :=
  match a.output, shardCount env a with
  | none, some _ => .error (.misuse "--shards needs --output")
  | none, none => .ok .single
  | some path, none => do
    create env path
    return .single
  | some path, some shards => .ok (.sharded path shards)

/-- The file of a shard of a table. -/
def shardPath (path : String) (table : Table) (index : Nat) : String :=
  path ++ "." ++ table.name ++ "." ++ toString index

/-- Export records of one kind. -/
def exportKind (env : Surroundings) (l : Ledger) (options : PassOptions) (target : Target)
    (kind : ExportKind) (w : Written) : Written × Except LedgerError Counts :=
  let sink := Sink.jsonLines kind.json
  match target with
  | .single =>
    match exportTable kind.kind l.snapshot options sink w.lines with
    | .error e => (w, .error e)
    | .ok report => ({ w with lines := report.sink }, report.result)
  | .sharded path shards =>
    let file := shardPath path kind.kind.table
    let make index := do
      create env (file index)
      return ({} : JsonLines)
    let report := exportSharded kind.kind l.snapshot options shards env.poolFault? ⟨sink, make⟩
    let files := report.sinks.zipIdx.map fun (lines, index) => (file index, lines.writer.text)
    ({ w with shardFiles := w.shardFiles ++ files }, report.result)

/-- The log line of a table that was exported. -/
def exportedLine (table : Table) (counts : Counts) : LogLine :=
  .info (table.name ++ " exported: [" ++ toString counts.produced ++ "] with [" ++
    toString counts.skipped ++ "] error(s)")

/-- Export tables one after another, until one fails. -/
def exportTables (env : Surroundings) (l : Ledger) (options : PassOptions) (target : Target) :
    List Table → Written → Written × Except LedgerError Unit
  | [], w => (w, .ok ())
  | t :: ts, w =>
    match ExportKind.ofTable? t with
    | none => (w, .error (.misuse ("the " ++ t.name ++ " table cannot be exported")))
    | some kind =>
      match exportKind env l options target kind w with
      | (w, .error e) => (w, .error e)
      | (w, .ok counts) =>
        exportTables env l options target ts { w with log := w.log ++ [exportedLine t counts] }

/-- The log line of the schema version. -/
def versionLines : Option UInt64 → List LogLine
  | some version => [.info ("ledger schema version " ++ toString version.toNat)]
  | none => []

/-- The outcome of a run that wrote nothing. -/
def failure (log : List LogLine) (e : LedgerError) : Outcome :=
  { exit := 1, log := log ++ [.error e.text] }

/-- The outcome of a run that got as far as its tables. -/
def finished (a : Arguments) (target : Target) (w : Written) (result : Except LedgerError Unit) :
    Outcome :=
  let text := w.lines.writer.text
  let stdout := match target, a.output with
    | .single, none => text
    | _, _ => ""
  let files := match target, a.output with
    | .single, some path => [(path, text)]
    | _, _ => w.shardFiles
  match result with
  | .ok () => { exit := 0, stdout, log := w.log, files }
  | .error e => { exit := 1, stdout, log := w.log ++ [.error e.text], files }

/-- Run the command with arguments that were understood. -/
def run (env : Surroundings) (a : Arguments) : Outcome :=
  match (Ledger.atPath env.place (a.filename.getD LedgerFile.defaultName)).result with
  | .error e => failure [] e
  | .ok ledger =>
    match ledger.schemaVersion with
    | .error e => failure [] e
    | .ok version =>
      let log := versionLines version
      let prepared := do return (← passOptions a, ← target env a)
      match prepared with
      | .error e => failure log e
      | .ok (options, target) =>
        match tables a with
        | .error e => finished a target { log } (.error e)
        | .ok ts =>
          let (w, result) := exportTables env ledger options target ts { log }
          finished a target w result

/-- Run the command with the words of a command line. -/
def runWords (env : Surroundings) (words : List String) : Outcome :=
  match Arguments.parse words with
  | .error .helpWanted => { exit := 0, stdout := usageText }
  | .error .invalid => { exit := 2 }
  | .ok a => run env a

end Command

end NanoLedger
