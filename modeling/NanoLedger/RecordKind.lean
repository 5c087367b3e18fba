import NanoLedger.Log
import NanoLedger.Normalized
import NanoLedger.Record.Metadata
import NanoLedger.Record.Peer
import NanoLedger.Record.Pending
import NanoLedger.Record.Unchecked

/-!
# Kinds of records

A pass over a table produces records of one kind. Some tables can be read in several forms: a block
as it is stored, enriched, or normalized, and an account likewise. `RecordKind` lists the forms,
`RecordKind.read` makes a record from an entry, and `ExportKind` lists those that have a written
form.
-/

namespace NanoLedger

/-- The forms in which entries are read. -/
inductive RecordKind where
  | block
  | enrichedBlock
  | normalizedBlock
  | account
  | enrichedAccount
  | normalizedAccount
  | confirmationHeight
  | pending
  | frontier
  | onlineWeight
  | peer
  | metadata
  | unchecked
deriving DecidableEq, Repr

namespace RecordKind

/-- The type of the records of a kind. -/
abbrev Record : RecordKind → Type
  | block => BlockRecord
  | enrichedBlock => EnrichedBlock
  | normalizedBlock => NormalizedBlock
  | account => AccountInfo
  | enrichedAccount => EnrichedAccount
  | normalizedAccount => NormalizedAccount
  | confirmationHeight => ConfirmationHeight
  | pending => PendingInfo
  | frontier => FrontierInfo
  | onlineWeight => OnlineWeight
  | peer => PeerInfo
  | metadata => MetaEntry
  | unchecked => UncheckedInfo

/-- The table from which a kind is read. -/
def table : RecordKind → Table
  | block | enrichedBlock | normalizedBlock => .blocks
  | account | enrichedAccount | normalizedAccount => .accounts
  | confirmationHeight => .confirmationHeight
  | pending => .pending
  | frontier => .frontiers
  | onlineWeight => .onlineWeight
  | peer => .peers
  | metadata => .metadata
  | unchecked => .unchecked

/-- The enriched block of an entry. -/
def readEnrichedBlock (s : Store) (e : Entry) : Except LedgerError EnrichedBlock := do
  s.enrich (← BlockRecord.decode e.key e.value)

/-- The enriched account of an entry. -/
def readEnrichedAccount (s : Store) (e : Entry) : Except LedgerError EnrichedAccount := do
  s.enrichAccount (← AccountInfo.decode e.key e.value)

/-- The record of an entry. What the entry does not hold itself is looked up in the store. -/
def read : (kind : RecordKind) → Store → Entry → Except LedgerError kind.Record
  | block, _, e => BlockRecord.decode e.key e.value
  | enrichedBlock, s, e => readEnrichedBlock s e
  | normalizedBlock, s, e => return (← readEnrichedBlock s e).normalize
  | account, _, e => AccountInfo.decode e.key e.value
  | enrichedAccount, s, e => readEnrichedAccount s e
  | normalizedAccount, s, e => return (← readEnrichedAccount s e).normalize
  | confirmationHeight, _, e => ConfirmationHeight.decode e.key e.value
  | pending, _, e => PendingInfo.decode e.key e.value
  | frontier, _, e => FrontierInfo.decode e.key e.value
  | onlineWeight, _, e => OnlineWeight.decode e.key e.value
  | peer, _, e => PeerInfo.decode e.key e.value
  | metadata, _, e => MetaEntry.decode e.key e.value
  | unchecked, _, e => UncheckedInfo.decode e.key e.value

/-- The log line of an enriched block. -/
def enrichedLine (hash : BlockHash) (height : UInt64) (account : Account) : LogLine :=
  .trace ("enriched block " ++ hash.text ++ " at height " ++ toString height.toNat ++ " of " ++
    account.address)

/-- What making a record has logged: a line for each block that was enriched. -/
def log : (kind : RecordKind) → kind.Record → List LogLine
  | enrichedBlock, b => [enrichedLine b.hash b.fields.height b.fields.account]
  | normalizedBlock, b => [enrichedLine b.hash b.height b.account]
  | _, _ => []

end RecordKind

/-- The kinds of records that have a written form. -/
inductive ExportKind where
  | block
  | account
  | accountInfo
  | confirmationHeight
  | pending
  | frontier
  | onlineWeight
  | peer
  | metadata
  | unchecked
deriving DecidableEq, Repr

namespace ExportKind

/-- The kind of the records that are written. -/
def kind : ExportKind → RecordKind
  | block => .normalizedBlock
  | account => .normalizedAccount
  | accountInfo => .account
  | confirmationHeight => .confirmationHeight
  | pending => .pending
  | frontier => .frontier
  | onlineWeight => .onlineWeight
  | peer => .peer
  | metadata => .metadata
  | unchecked => .unchecked

/-- The written form of a record. -/
def json : (e : ExportKind) → e.kind.Record → Json
  | block, b => NormalizedBlock.json b
  | account, a => NormalizedAccount.json a
  | accountInfo, a => AccountInfo.json a
  | confirmationHeight, c => ConfirmationHeight.json c
  | pending, p => PendingInfo.json p
  | frontier, f => FrontierInfo.json f
  | onlineWeight, w => OnlineWeight.json w
  | peer, p => PeerInfo.json p
  | metadata, m => MetaEntry.json m
  | unchecked, u => UncheckedInfo.json u

/-- The form in which a table is exported, if it can be. -/
def ofTable? : Table → Option ExportKind
  | .accounts => some account
  | .blocks => some block
  | .confirmationHeight => some confirmationHeight
  | .pending => some pending
  | .frontiers => some frontier
  | .onlineWeight => some onlineWeight
  | .peers => some peer
  | .metadata => some metadata
  | .unchecked => some unchecked
  | .vote => none

theorem table_of_ofTable? {t : Table} {e : ExportKind} (h : ofTable? t = some e) :
    e.kind.table = t := by
  cases t <;> cases h <;> rfl

/-- Every table can be exported but that of votes. -/
theorem exists_ofTable? {t : Table} (h : t ≠ .vote) : ∃ e, ofTable? t = some e := by
  cases t with
  | vote => exact absurd rfl h
  | accounts | blocks | confirmationHeight | pending | frontiers | onlineWeight | peers | metadata
  | unchecked => exact ⟨_, rfl⟩

end ExportKind

end NanoLedger
