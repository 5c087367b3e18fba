import NanoLedger.Text.Terminal

/-!
# Log lines

Operations that are logged give their lines as values, in the order in which they arose.
-/

namespace NanoLedger

/-- The weight of a log line. -/
inductive LogLevel where
  | error
  | warn
  | info
  | debug
  | trace
deriving DecidableEq, Repr

/-- The name of a level. -/
def LogLevel.name : LogLevel → String
  | error => "ERROR"
  | warn => "WARN"
  | info => "INFO"
  | debug => "DEBUG"
  | trace => "TRACE"

/-- One line of the log. -/
structure LogLine where
  level : LogLevel
  text : String
deriving DecidableEq, Repr

namespace LogLine

def error (text : String) : LogLine := ⟨.error, text⟩
def warn (text : String) : LogLine := ⟨.warn, text⟩
def info (text : String) : LogLine := ⟨.info, text⟩
def debug (text : String) : LogLine := ⟨.debug, text⟩
def trace (text : String) : LogLine := ⟨.trace, text⟩

/-- The line as it is recorded. -/
def render (line : LogLine) : String := line.level.name ++ " " ++ line.text

/-- The line as it is shown on a terminal. -/
def terminalText (line : LogLine) : String := line.level.name ++ " " ++ Text.tame line.text

end LogLine

end NanoLedger
