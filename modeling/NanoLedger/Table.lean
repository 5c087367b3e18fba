import NanoLedger.Error

/-!
# Tables

The named tables of a ledger, in the order in which a ledger file is opened.
-/

namespace NanoLedger

/-- A table of the ledger. -/
inductive Table where
  | accounts
  | blocks
  | confirmationHeight
  | pending
  | frontiers
  | onlineWeight
  | peers
  | metadata
  | unchecked
  | vote
deriving DecidableEq, Repr

namespace Table

/-- The tables in order. -/
def all : List Table :=
  [accounts, blocks, confirmationHeight, pending, frontiers, onlineWeight, peers, metadata, unchecked,
    vote]

/-- The name of a table in a ledger file. -/
def name : Table → String
  | accounts => "accounts"
  | blocks => "blocks"
  | confirmationHeight => "confirmation_height"
  | pending => "pending"
  | frontiers => "frontiers"
  | onlineWeight => "online_weight"
  | peers => "peers"
  | metadata => "meta"
  | unchecked => "unchecked"
  | vote => "vote"

/-- The table of a name. -/
def ofName? (name : String) : Option Table := all.find? (·.name = name)

/-- The table of a name; other names are of missing tables. -/
def ofName (name : String) : Except LedgerError Table :=
  match ofName? name with
  | some table => .ok table
  | none => .error (.noTable name)

/-- The position of a table in the order of the tables. -/
def index : Table → Fin 10
  | accounts => 0
  | blocks => 1
  | confirmationHeight => 2
  | pending => 3
  | frontiers => 4
  | onlineWeight => 5
  | peers => 6
  | metadata => 7
  | unchecked => 8
  | vote => 9

theorem index_inj {t u : Table} : t.index = u.index ↔ t = u := by
  cases t <;> cases u <;> decide

theorem mem_all (t : Table) : t ∈ all := by cases t <;> decide

theorem ofName?_name (t : Table) : ofName? t.name = some t := by cases t <;> decide

/-- The error of reading a table that the ledger lacks. -/
def missing (t : Table) : LedgerError := .noTable t.name

end Table

end NanoLedger
