import NanoLedger.Command
import NanoLedger.Ledger.Dump
import NanoLedger.Ledger.Path

/-!
# The program

Runs the export command. Before the run the program looks at the paths that the arguments name, and
after it carries out what the run has decided: it prints, writes the files, and exits. Ledger files
are read in the form of dumps.
-/

namespace NanoLedger

namespace Command

/-- What stands at a path. -/
def inspectPath (path : String) : IO Place := do
  try
    let real ← IO.FS.realPath path
    if ← real.isDir then return .directory
    let bytes ← IO.FS.readBinFile real
    return .file ((String.fromUTF8? bytes).bind Dump.parse)
  catch _ => return .nothing

/-- The number of processors that the system reports, at least one. -/
def countProcessors : IO Nat := do
  try
    let text ← IO.FS.readFile "/proc/cpuinfo"
    return max 1 ((text.splitOn "\n").filter (·.startsWith "processor")).length
  catch _ => return 1

/-- Look at all that a run may ask for. -/
def survey (a : Arguments) : IO Surroundings := do
  let filename := a.filename.getD LedgerFile.defaultName
  let inside := LedgerFile.inDirectory filename LedgerFile.defaultName
  let here ← inspectPath filename
  let below ← inspectPath inside
  let output := a.output.getD ""
  let above ← inspectPath (Path.parent output)
  let outputPlace ← inspectPath output
  return {
    place := fun path =>
      if path = filename then here else if path = inside then below else .nothing
    creationFault? := fun path =>
      Path.creationFault? path (.ok above) (if path = output then outputPlace else .nothing)
    -- the shards run one after another, so that no pool is ever built
    poolFault? := fun _ => none
    processors := ← countProcessors }

/-- Carry out what a run has decided. -/
def perform (outcome : Outcome) : IO UInt32 := do
  for line in outcome.log do
    IO.eprintln line.terminalText
  for (path, text) in outcome.files do
    IO.FS.writeFile path text
  IO.print outcome.stdout
  return UInt32.ofNat outcome.exit

end Command

end NanoLedger

open NanoLedger in
/-- Run the command with the words of the command line. -/
def main (words : List String) : IO UInt32 := do
  match Command.Arguments.parse words with
  | .error .helpWanted => Command.perform { exit := 0, stdout := Command.usageText }
  | .error .invalid => do
    IO.eprint Command.usageText
    return 2
  | .ok arguments => Command.perform (Command.run (← Command.survey arguments) arguments)
