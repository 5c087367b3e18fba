import NanoLedger.Store.KeyMap
import NanoLedger.Table

/-!
# Views of a ledger

A store is one consistent view of a ledger. It can be asked for the value under a key and for the
entries of a table in ascending order of their keys. Both may fail: a lookup as a whole, a walk at
its start or after some entries. `Store.failingAt` and `Store.breakingAfter` are a store some of
whose lookups or all of whose walks fail.
-/

namespace NanoLedger

/-- The outcomes of walking through entries, one after another. -/
abbrev Walk := List (Except LedgerError Entry)

/-- A view of a ledger. -/
structure Store where
  /-- the value under a key; nothing if the key or the whole table is absent -/
  get : Table → Bytes → Except LedgerError (Option Bytes)
  /-- the entries of a table from the first key on that is not below the start -/
  walk : Table → Option Bytes → Except LedgerError Walk

namespace Store

/-- The store in which looking up certain keys fails. -/
def failingAt (s : Store) (fails : Table → Bytes → Bool) (e : LedgerError) : Store :=
  { s with get := fun table key => if fails table key then .error e else s.get table key }

/-- The store in which every walk that starts gives some entries at most and then fails. -/
def breakingAfter (s : Store) (count : Nat) (e : LedgerError) : Store :=
  { s with walk := fun table start => (s.walk table start).map fun w => w.take count ++ [.error e] }

end Store

end NanoLedger
