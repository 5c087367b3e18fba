import NanoLedger.Bytes.Hex

/-!
# Errors of a ledger

An error has a cause and a context, a text that callers extend with `LedgerError.join` on the way
out. Errors that concern one record only, a truncated or opaque entry or a broken reference to
another entry, are skippable (`LedgerError.isSkippable`): a pass counts such a record and goes on.
Every other error ends what was being done.
-/

namespace NanoLedger

/-- The kind of a failed operation on a file or an output, as far as anything depends on it. -/
inductive IoKind where
  /-- the input ended before a read was complete -/
  | unexpectedEof
  /-- the operation is to be tried again -/
  | interrupted
  /-- the output took nothing -/
  | writeZero
  | other
deriving DecidableEq, Repr

/-- A failed operation on a file or an output. -/
structure IoFault where
  text : String
  kind : IoKind := .other
deriving DecidableEq, Repr

/-- A fault of the key-value store that holds the ledger. -/
inductive StoreFault where
  | notFound
  | badValueSize
  | invalid
  | incompatible
  | noSuchFile
deriving DecidableEq, Repr

/-- The wording of a fault of the store. -/
def StoreFault.text : StoreFault → String
  | notFound => "MDB_NOTFOUND: No matching key/data pair found"
  | badValueSize => "MDB_BAD_VALSIZE: Unsupported size of key/DB name/data, or wrong DUPFIXED size"
  | invalid => "MDB_INVALID: File is not an LMDB file"
  | incompatible => "MDB_INCOMPATIBLE: Operation and DB incompatible, or DB flags changed"
  | noSuchFile => "No such file or directory"

/-- What went wrong. -/
inductive Cause where
  /-- a key or a value is shorter than its schema -/
  | truncatedRecord
  /-- a block of a kind whose contents are not known -/
  | unsupportedTag (tag : UInt8)
  /-- an entry that another one refers to is missing or unreadable -/
  | brokenChainReference
  | invalidAddress
  | keyNotFound
  | missingTable (name : String)
  | invalidKey
  | store (fault : StoreFault)
  | io (fault : IoFault)
  | hex (fault : Hex.Fault)
  /-- a record could not be written as JSON -/
  | json (fault : IoFault)
  | runtime
deriving DecidableEq, Repr

/-- The wording of a cause. -/
def Cause.text : Cause → String
  | truncatedRecord => "truncated record"
  | unsupportedTag tag => "unsupported block tag " ++ toString tag.toNat
  | brokenChainReference => "broken chain reference"
  | invalidAddress => "invalid address format"
  | keyNotFound => "start key not found"
  | missingTable name => "table `" ++ name ++ "` not found"
  | invalidKey => "invalid key"
  | store fault => "lmdb error: " ++ fault.text
  | io fault => "io error: " ++ fault.text
  | hex fault => "hex error: " ++ fault.text
  | json fault => "json error: " ++ fault.text
  | runtime => "runtime error"

/-- An error: its cause and what is known about where it arose. -/
structure LedgerError where
  cause : Cause
  context : String := ""
deriving DecidableEq, Repr

namespace LedgerError

/-- Add to the context of an error. -/
def join (e : LedgerError) (text : String) : LedgerError :=
  { e with context := if e.context = "" then text else e.context ++ "; " ++ text }

/-- The text of an error: its cause and, if there is one, its context. -/
def text (e : LedgerError) : String :=
  if e.context = "" then e.cause.text else e.cause.text ++ ": " ++ e.context

/-- Whether the error concerns one record only. -/
def isSkippable (e : LedgerError) : Bool :=
  match e.cause with
  | .truncatedRecord | .unsupportedTag _ | .brokenChainReference => true
  | _ => false

/-- The text of the fault that caused the error, if another part of the system reported one. -/
def origin? (e : LedgerError) : Option String :=
  match e.cause with
  | .store fault => some fault.text
  | .io fault => some fault.text
  | .hex fault => some fault.text
  | .json fault => some fault.text
  | _ => none

/-- A key or a value ended too early. -/
def truncated : LedgerError := { cause := .truncatedRecord }

/-- A block of an unknown kind. -/
def unsupported (tag : UInt8) : LedgerError := { cause := .unsupportedTag tag }

/-- A reference to another entry that leads nowhere. -/
def brokenChain (context : String) : LedgerError := { cause := .brokenChainReference, context }

/-- A ledger without the table. -/
def noTable (name : String) : LedgerError := { cause := .missingTable name }

/-- Any other misuse, described by its context alone. -/
def misuse (context : String) : LedgerError := { cause := .runtime, context }

/-- A fault of the store. -/
def ofStore (fault : StoreFault) : LedgerError := { cause := .store fault }

/-- A fault in a hexadecimal text. -/
def ofHex (fault : Hex.Fault) : LedgerError := { cause := .hex fault }

/-- A failed write of a record. -/
def ofJson (fault : IoFault) : LedgerError := { cause := .json fault }

/-- A failed operation on a file; input that ends too early is a truncated record. -/
def ofIo (fault : IoFault) : LedgerError :=
  if fault.kind = .unexpectedEof then truncated else { cause := .io fault }

end LedgerError

end NanoLedger
