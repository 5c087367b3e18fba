import NanoLedger.Store

/-!
# Tables in memory

A family of ordered maps, one for each table that exists. A table comes into being with its first
entry and stays when its last entry is removed. Reading tables never fails, apart from walks through
tables that do not exist.
-/

namespace NanoLedger

/-- The tables of a ledger, each present or absent. -/
structure Tables where
  slots : Vector (Option KeyMap) 10

namespace Tables

/-- No table. -/
def empty : Tables := ⟨Vector.replicate 10 none⟩

instance : Inhabited Tables := ⟨empty⟩

/-- The entries of a table, if it exists. -/
def table? (ts : Tables) (t : Table) : Option KeyMap := ts.slots[t.index]

/-- Replace the entries of a table. -/
def setTable (ts : Tables) (t : Table) (m : KeyMap) : Tables := ⟨ts.slots.set t.index (some m)⟩

@[simp] theorem table?_empty (t : Table) : empty.table? t = none := by
  cases t <;> rfl

theorem table?_setTable (ts : Tables) (t u : Table) (m : KeyMap) :
    (ts.setTable t m).table? u = if t = u then some m else ts.table? u := by
  by_cases h : t = u
  · subst h
    simp [table?, setTable]
  · have : t.index.val ≠ u.index.val := fun hv => h (Table.index_inj.1 (Fin.ext hv))
    simp [table?, setTable, h, this]

/-- Put a value under a key of a table, which exists from then on. -/
def insert (ts : Tables) (t : Table) (key value : Bytes) : Tables :=
  ts.setTable t (((ts.table? t).getD .empty).insert key value)

/-- Remove a key from a table. -/
def erase (ts : Tables) (t : Table) (key : Bytes) : Tables :=
  match ts.table? t with
  | none => ts
  | some m => ts.setTable t (m.erase key)

/-- The value under a key of a table, and the tables without the key. -/
def remove (ts : Tables) (t : Table) (key : Bytes) : Option Bytes × Tables :=
  match ts.table? t with
  | none => (none, ts)
  | some m =>
    let (value, m) := m.remove key
    (value, ts.setTable t m)

/-- The value under a key of a table. -/
def find? (ts : Tables) (t : Table) (key : Bytes) : Option Bytes :=
  (ts.table? t).bind (·.find? key)

/-- The number of entries of a table. -/
def size (ts : Tables) (t : Table) : Nat := ((ts.table? t).map (·.size)).getD 0

/-- The view of the tables. -/
def store (ts : Tables) : Store where
  get t key := .ok (ts.find? t key)
  walk t start :=
    match ts.table? t with
    | none => .error t.missing
    | some m => .ok ((m.startingAt start).map .ok)

@[simp] theorem get_store (ts : Tables) (t : Table) (key : Bytes) :
    ts.store.get t key = .ok (ts.find? t key) := rfl

theorem find?_insert (ts : Tables) (t u : Table) (k value key : Bytes) :
    (ts.insert t k value).find? u key =
      if t = u ∧ k = key then some value else ts.find? u key := by
  rw [find?, insert, table?_setTable]
  by_cases ht : t = u
  · subst ht
    cases hm : ts.table? t with
    | none =>
      by_cases hk : k = key <;> simp [find?, hm, KeyMap.find?_insert, hk]
    | some m => by_cases hk : k = key <;> simp [find?, hm, KeyMap.find?_insert, hk]
  · simp [find?, ht]

theorem find?_erase (ts : Tables) (t u : Table) (k key : Bytes) :
    (ts.erase t k).find? u key = if t = u ∧ k = key then none else ts.find? u key := by
  unfold erase
  cases hm : ts.table? t with
  | none =>
    by_cases h : t = u ∧ k = key
    · obtain ⟨rfl, rfl⟩ := h
      simp [find?, hm]
    · simp [h]
  | some m =>
    rw [find?, table?_setTable]
    by_cases ht : t = u
    · subst ht
      by_cases hk : k = key <;> simp [find?, hm, KeyMap.find?_erase, hk]
    · simp [find?, ht]

/-- A removal gives what a lookup finds, and leaves what an erasure leaves. -/
theorem remove_eq (ts : Tables) (t : Table) (key : Bytes) :
    ts.remove t key = (ts.find? t key, ts.erase t key) := by
  rw [remove, find?, erase]
  cases ts.table? t with
  | none => rfl
  | some m => simp only [KeyMap.remove_eq, Option.bind_some]

end Tables

end NanoLedger
