import NanoLedger.Ledger.File

/-!
# Arguments of the command

The command takes options with a value each. A long option is followed by its value or joined to it
by `=`; a short one is followed by its value or joined to it directly or by `=`. A value that is not
joined must not begin with a dash, a lone dash excepted. Each option may be given once.
-/

namespace NanoLedger

namespace Command

/-- The options that take a value. -/
inductive CommandOption where
  | filename
  | table
  | count
  | key
  | output
  | shards
deriving DecidableEq, Repr

namespace CommandOption

/-- The options in the order in which the usage text lists them. -/
def all : List CommandOption := [filename, table, count, key, output, shards]

/-- The name behind two dashes. -/
def long : CommandOption → String
  | filename => "filename"
  | table => "table"
  | count => "count"
  | key => "key"
  | output => "output"
  | shards => "shards"

/-- The letter behind one dash. -/
def short : CommandOption → Char
  | filename => 'f'
  | table => 't'
  | count => 'c'
  | key => 'k'
  | output => 'o'
  | shards => 's'

/-- What the usage text says of an option. -/
def help : CommandOption → String
  | filename => "Ledger file, or the node directory holding it [default: data.ldb]"
  | table => "`all`, `accounts`, `blocks`, or the name of any other table [default: all]"
  | count => "Stop after this many records per table, counted across all shards"
  | key => "Resume from this key, in hex"
  | output => "Output file, stdout if absent"
  | shards => "Split each table into this many parallel passes, 0 for one per CPU"

end CommandOption

/-- The values of the options, as far as they are given. -/
structure Arguments where
  filename : Option String := none
  table : Option String := none
  count : Option Nat := none
  key : Option String := none
  output : Option String := none
  shards : Option Nat := none
deriving DecidableEq, Repr

/-- Why arguments are not run. -/
inductive Usage where
  | helpWanted
  | invalid
deriving DecidableEq, Repr

/-- The number that a text of decimal digits stands for, if it is a 64-bit one. A plus may stand in
front. -/
def parseCount (text : String) : Option Nat :=
  let digits := match text.toList with
    | '+' :: cs => cs
    | cs => cs
  if digits.isEmpty ∨ ¬ digits.all Char.isDigit then none
  else
    let n := digits.foldl (fun n c => 10 * n + (c.toNat - '0'.toNat)) 0
    if n < UInt64.size then some n else none

/-- A text that is not empty. -/
def parsePath (text : String) : Option String := if text = "" then none else some text

/-- Set a value that has not been set. -/
def setOnce {α : Type} (old new : Option α) : Option (Option α) :=
  match old, new with
  | none, some a => some (some a)
  | _, _ => none

/-- The arguments with the value of one more option. -/
def Arguments.set (a : Arguments) (option : CommandOption) (value : String) : Option Arguments :=
  match option with
  | .filename => return { a with filename := ← setOnce a.filename (parsePath value) }
  | .table => return { a with table := ← setOnce a.table (some value) }
  | .count => return { a with count := ← setOnce a.count (parseCount value) }
  | .key => return { a with key := ← setOnce a.key (some value) }
  | .output => return { a with output := ← setOnce a.output (parsePath value) }
  | .shards => return { a with shards := ← setOnce a.shards (parseCount value) }

/-- A word of the command line. -/
inductive Word where
  /-- an option, and its value if that is joined to it -/
  | option (option : CommandOption) (joined : Option String)
  | help
  /-- two dashes, which end the options -/
  | separator
  | plain
  | unknown
deriving DecidableEq, Repr

/-- What stands behind the `=` that joins a value to a short option, or the value itself. -/
def afterEquals : List Char → List Char
  | '=' :: cs => cs
  | cs => cs

/-- Tell what a word of the command line is. -/
def Word.ofText (text : String) : Word :=
  match text.toList with
  | ['-', '-'] => .separator
  | '-' :: '-' :: cs =>
    let name := String.ofList (cs.takeWhile (· ≠ '='))
    let joined := match cs.dropWhile (· ≠ '=') with
      | '=' :: value => some (String.ofList value)
      | _ => none
    if name = "help" then (if joined.isNone then .help else .unknown)
    else
      match CommandOption.all.find? (·.long = name) with
      | some o => .option o joined
      | none => .unknown
  | '-' :: c :: cs =>
    if c = 'h' then .help
    else
      match CommandOption.all.find? (·.short = c) with
      | some o => .option o (if cs.isEmpty then none else some (String.ofList (afterEquals cs)))
      | none => .unknown
  | _ => .plain

/-- Read the words of a command line. -/
def Arguments.read (a : Arguments) : List String → Except Usage Arguments
  | [] => .ok a
  | word :: words =>
    match Word.ofText word with
    | .help => .error .helpWanted
    | .separator => if words.isEmpty then .ok a else .error .invalid
    | .plain | .unknown => .error .invalid
    | .option o (some value) =>
      match a.set o value with
      | some a => read a words
      | none => .error .invalid
    | .option o none =>
      match words with
      | [] => .error .invalid
      | value :: words =>
        if Word.ofText value ≠ .plain then .error .invalid
        else
          match a.set o value with
          | some a => read a words
          | none => .error .invalid

/-- The arguments of a command line. -/
def Arguments.parse (words : List String) : Except Usage Arguments := Arguments.read {} words

/-- What the command prints when it is asked for help. -/
def usageText : String :=
  let line (o : CommandOption) :=
    let left := "  -" ++ String.singleton o.short ++ ", --" ++ o.long ++ " <" ++
      o.long.toUpper ++ ">"
    left ++ String.ofList (List.replicate (29 - left.length) ' ') ++ o.help ++ "\n"
  "Export the tables of a Nano ledger as JSON lines\n\n" ++
  "Usage: nano-ledger-export [OPTIONS]\n\nOptions:\n" ++
  String.join (CommandOption.all.map line) ++
  "  -h, --help                 Print help\n"

end Command

end NanoLedger
