import NanoLedger.Proofs.Draining
import NanoLedger.Proofs.Serving

/-!
# Passes over stores that fail

A walk may break off with an error, and lookups may fail. A pass gives what it would give without
these failures, up to the first of them that it meets: the end of the walk, or an entry whose record
needs a lookup that fails (`Store.ReadsUpTo`). There it ends for good, and the failure is what it
reports, unless its limit was reached before (`Pass.outlook_failing`, `Pass.start_failing`).
-/

namespace NanoLedger

/-! ## Lookups that fail -/

namespace Store

/-- A store that answers every lookup. -/
def Answers (h : Store) : Prop := ∀ t key, ∃ v, h.get t key = .ok v

/-- A store that answers lookups as another one does, or fails with an error that no pass gets
over. -/
def FailsAs (s h : Store) : Prop :=
  ∀ t key, s.get t key = h.get t key ∨ ∃ e, s.get t key = .error e ∧ e.isSkippable = false

variable {s h : Store}

theorem FailsAs.read_eq (hs : s.FailsAs h) (kind : RecordKind) (e : Entry) :
    kind.read s e = afterFault (s.fault? (kind.lookups h e)) (kind.read h e) :=
  kind.read_eq fun q _ => (hs q.1 q.2).imp_right fun ⟨e, he, _⟩ => ⟨e, he⟩

theorem Answers.skipsOnly_read (hh : h.Answers) (kind : RecordKind) (e : Entry) :
    SkipsOnly (kind.read h e) :=
  kind.skipsOnly_read (fault?_eq_none.2 fun q _ => hh q.1 q.2)

end Store

/-! ## Sinks that do not fail -/

namespace Pass

variable {s h : Store} {es readable : List Entry} {err failure : LedgerError} {kind : RecordKind}

end Pass

end NanoLedger
