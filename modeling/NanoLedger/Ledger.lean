import NanoLedger.Ledger.File
import NanoLedger.RecordKind

/-!
# Ledgers

A ledger is opened from a file and then asked for single records. Its view (`Ledger.snapshot`) is
that of its tables, except that the empty byte string is no key: looking it up in a table that
exists fails, and so does a walk that is to start at it.
-/

namespace NanoLedger

/-- An open ledger. -/
structure Ledger where
  tables : Tables

/-- The outcome of opening a ledger, and what was logged about it. -/
structure LedgerOpening where
  result : Except LedgerError Ledger
  log : List LogLine

namespace Ledger

/-- Open the ledger that a path leads to. -/
def atPath (place : String → Place) (path : String) : LedgerOpening :=
  match LedgerFile.locate place path with
  | .error e => ⟨.error e, []⟩
  | .ok (path, contents) =>
    let startLine := LogLine.info ("Opening ledger at " ++ path)
    match contents with
    | none => ⟨.error (.ofStore .invalid), [startLine]⟩
    | some file =>
      match file.openTables Table.all with
      | (.error e, log) => ⟨.error e, startLine :: log⟩
      | (.ok (), log) =>
        let count := (Table.all.filter fun t => (file.tables.table? t).isSome).length
        let endLine := LogLine.info ("Opened " ++ toString count ++ " ledger tables")
        ⟨.ok ⟨file.tables⟩, startLine :: log ++ [endLine]⟩

/-- Whether a key is empty although the table exists. -/
def refuses (l : Ledger) (t : Table) (key : Bytes) : Bool :=
  key.isEmpty && (l.tables.table? t).isSome

/-- The view of the ledger. -/
def snapshot (l : Ledger) : Store where
  get t key := if l.refuses t key then .error (.ofStore .badValueSize) else l.tables.store.get t key
  walk t start :=
    if (start.map (l.refuses t)).getD false then .ok [.error (.ofStore .badValueSize)]
    else l.tables.store.walk t start

/-- The record of the given kind under a key. -/
def getRecord (l : Ledger) (kind : RecordKind) (key : Bytes) : Except LedgerError kind.Record := do
  match ← l.snapshot.get kind.table key with
  | some value => kind.read l.snapshot ⟨key, value⟩
  | none => .error { cause := .keyNotFound, context := kind.table.name ++ " " ++ Hex.encode key }

/-- The block with a hash, in a form into which an enriched block can be converted. -/
def getBlockAs {β : Type} (convert : EnrichedBlock → β) (l : Ledger) (hash : BlockHash) :
    Except LedgerError β := do
  return convert (← l.getRecord .enrichedBlock hash.bytes)

/-- An account with its confirmation height, in a form into which both can be converted. -/
def getAccountAs {β : Type} (convert : EnrichedAccount → β) (l : Ledger) (account : Account) :
    Except LedgerError β := do
  return convert (← l.getRecord .enrichedAccount account.key.bytes)

/-- The block with a hash. -/
def getBlock (l : Ledger) (hash : BlockHash) : Except LedgerError EnrichedBlock :=
  l.getBlockAs id hash

/-- An account with its confirmation height. -/
def getAccount (l : Ledger) (account : Account) : Except LedgerError EnrichedAccount :=
  l.getAccountAs id account

/-- The confirmation height of an account, if one is recorded. -/
def getConfirmationHeight (l : Ledger) (account : Account) :
    Except LedgerError (Option ConfirmationHeight) :=
  l.snapshot.confirmationHeight account

/-- The schema version that the ledger records, if it records one that can be read. -/
def schemaVersion (l : Ledger) : Except LedgerError (Option UInt64) := do
  match ← l.snapshot.get .metadata MetaEntry.versionKeyBytes with
  | none => return none
  | some value =>
    match ← MetaEntry.decode MetaEntry.versionKeyBytes value with
    | .version version => return some version
    | .unrecognised .. => return none

end Ledger

end NanoLedger
