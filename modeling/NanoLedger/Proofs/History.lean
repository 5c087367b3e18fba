import NanoLedger.Store.Tables

/-!
# Tables and their histories

Tables in memory come about by updates, one after another, from no table at all
(`Tables.ofUpdates`). A table exists from the first insertion into it on, whatever is erased later
(`Tables.isSome_table?_ofUpdates`). What it holds is seen key by key: its list of entries has an entry
exactly if looking up the key finds the value (`KeyMap.mem_entries`, `Tables.mem_entries`).
-/

namespace NanoLedger

/-- One change of the tables. -/
inductive Update where
  | insert (table : Table) (key value : Bytes)
  | erase (table : Table) (key : Bytes)
deriving DecidableEq, Repr

namespace Tables

/-- The tables after one change. -/
def apply (ts : Tables) : Update → Tables
  | .insert t key value => ts.insert t key value
  | .erase t key => ts.erase t key

/-- The tables that updates, one after another, make out of nothing. -/
def ofUpdates (us : List Update) : Tables := us.foldl apply empty

/-- An update brings its table into being if it is an insertion, and never ends one. -/
theorem isSome_table?_apply (ts : Tables) (u : Update) (t : Table) :
    ((ts.apply u).table? t).isSome ↔
      (ts.table? t).isSome ∨ ∃ key value, u = .insert t key value := by
  cases u with
  | insert u key value =>
    rw [apply, insert, table?_setTable]
    by_cases h : u = t <;> simp [h]
  | erase u key =>
    rw [apply, erase]
    cases hu : ts.table? u with
    | none => simp
    | some m =>
      rw [table?_setTable]
      by_cases h : u = t
      · subst h
        simp [hu]
      · simp [h]

/-- A table exists if and only if something was ever inserted into it. -/
theorem isSome_table?_ofUpdates (us : List Update) (t : Table) :
    ((ofUpdates us).table? t).isSome ↔ ∃ key value, .insert t key value ∈ us := by
  have general (ts : Tables) : ((us.foldl apply ts).table? t).isSome ↔
      (ts.table? t).isSome ∨ ∃ key value, Update.insert t key value ∈ us := by
    induction us generalizing ts with
    | nil => simp
    | cons u us ih =>
      rw [List.foldl_cons, ih, isSome_table?_apply, or_assoc, ← exists_or]
      simp only [← exists_or, List.mem_cons, eq_comm]
  simpa [ofUpdates] using general empty

end Tables

/-! ## Entries and lookups -/

/-- In ascending entries, looking up the key of an entry finds it. -/
theorem mem_iff_find?_key {es : List Entry} (h : es.Pairwise fun a b => a.key < b.key) (e : Entry) :
    e ∈ es ↔ (es.find? fun x => x.key = e.key).map (·.value) = some e.value := by
  induction es with
  | nil => simp
  | cons x xs ih =>
    have ⟨hx, hxs⟩ := List.pairwise_cons.1 h
    by_cases hkey : x.key = e.key
    · have hnot : e ∉ xs := fun he => List.lt_irrefl e.key (hkey ▸ hx e he)
      rw [List.mem_cons, List.find?_cons_of_pos (by simpa using hkey), Option.map_some]
      refine ⟨?_, fun hv => .inl ?_⟩
      · rintro (rfl | he)
        · rfl
        · exact absurd he hnot
      · cases e
        cases x
        cases hkey
        cases hv
        rfl
    · rw [List.mem_cons, List.find?_cons_of_neg (by simpa using hkey), ← ih hxs]
      exact or_iff_right fun heq => hkey (heq ▸ rfl)

/-- The entries of a map are its keys with their values. -/
theorem KeyMap.mem_entries (m : KeyMap) (e : Entry) :
    e ∈ m.entries ↔ m.find? e.key = some e.value := mem_iff_find?_key m.sorted e

/-- No two entries of a map have the same key. -/
theorem KeyMap.nodup_keys (m : KeyMap) : (m.entries.map (·.key)).Nodup := by
  refine List.pairwise_map.2 (m.sorted.imp fun hlt heq => ?_)
  exact List.lt_irrefl _ (heq ▸ hlt)

/-- The entries of a table are its keys with their values. -/
theorem Tables.mem_entries {ts : Tables} {t : Table} {m : KeyMap} (hm : ts.table? t = some m)
    (e : Entry) : e ∈ m.entries ↔ ts.find? t e.key = some e.value := by
  rw [m.mem_entries, Tables.find?, hm, Option.bind_some]

end NanoLedger
