import NanoLedger.Bytes.Basic

/-!
# Ordered maps of byte strings

A `KeyMap` keeps the entries of one table in ascending order of their keys, each key once. Its view
is `KeyMap.find?`: an insertion or an erasure changes the answer for its own key and for no other
(`KeyMap.find?_insert`, `KeyMap.find?_erase`). A removal erases a key and gives the value that stood
under it (`KeyMap.remove_eq`).
-/

namespace NanoLedger

/-- A key and its value. -/
structure Entry where
  key : Bytes
  value : Bytes
deriving DecidableEq, Repr

/-- Entries in ascending order of their keys. -/
structure KeyMap where
  entries : List Entry
  sorted : entries.Pairwise fun a b => a.key < b.key

namespace KeyMap

/-- No entries. -/
def empty : KeyMap := ⟨[], .nil⟩

instance : Inhabited KeyMap := ⟨empty⟩

/-- The number of entries. -/
def size (m : KeyMap) : Nat := m.entries.length

/-- The value under a key. -/
def find? (m : KeyMap) (key : Bytes) : Option Bytes :=
  (m.entries.find? fun e => e.key = key).map (·.value)

@[simp] theorem find?_empty (key : Bytes) : empty.find? key = none := rfl

/-- Put an entry at its place in an ascending list, instead of one of the same key. -/
def insertEntry (e : Entry) : List Entry → List Entry
  | [] => [e]
  | x :: xs =>
    if e.key < x.key then e :: x :: xs
    else if x.key < e.key then x :: insertEntry e xs
    else e :: xs

theorem mem_insertEntry {e y : Entry} : ∀ {xs : List Entry}, y ∈ insertEntry e xs → y = e ∨ y ∈ xs
  | [], h => by simpa [insertEntry] using h
  | x :: xs, h => by
    rw [insertEntry] at h
    split at h
    · simpa using h
    · split at h
      · rcases List.mem_cons.1 h with rfl | h
        · exact .inr (.head _)
        · exact (mem_insertEntry h).imp_right (List.mem_cons_of_mem _)
      · exact (List.mem_cons.1 h).imp_right (List.mem_cons_of_mem _)

theorem eq_of_not_lt {a b : Bytes} (h : ¬ a < b) (h' : ¬ b < a) : a = b :=
  List.le_antisymm (List.not_lt.1 h') (List.not_lt.1 h)

theorem sorted_insertEntry (e : Entry) : ∀ {xs : List Entry},
    xs.Pairwise (fun a b => a.key < b.key) →
      (insertEntry e xs).Pairwise fun a b => a.key < b.key
  | [], _ => List.pairwise_singleton _ _
  | x :: xs, h => by
    have ⟨hx, hxs⟩ := List.pairwise_cons.1 h
    rw [insertEntry]
    split
    · next hlt =>
      refine List.pairwise_cons.2 ⟨fun y hy => ?_, h⟩
      rcases List.mem_cons.1 hy with rfl | hy
      · exact hlt
      · exact List.lt_trans hlt (hx y hy)
    · next hnlt =>
      split
      · next hgt =>
        refine List.pairwise_cons.2 ⟨fun y hy => ?_, sorted_insertEntry e hxs⟩
        rcases mem_insertEntry hy with rfl | hy
        · exact hgt
        · exact hx y hy
      · next hngt =>
        have heq : e.key = x.key := eq_of_not_lt hnlt hngt
        exact List.pairwise_cons.2 ⟨fun y hy => heq ▸ hx y hy, hxs⟩

/-- The map with a value under a key. -/
def insert (m : KeyMap) (key value : Bytes) : KeyMap :=
  ⟨insertEntry ⟨key, value⟩ m.entries, sorted_insertEntry _ m.sorted⟩

/-- The map without a key. -/
def erase (m : KeyMap) (key : Bytes) : KeyMap :=
  ⟨m.entries.filter fun e => e.key ≠ key, m.sorted.filter _⟩

/-- Take the entry of a key out of entries, and give its value. -/
def removeEntry (key : Bytes) : List Entry → Option Bytes × List Entry
  | [] => (none, [])
  | x :: xs =>
    if x.key = key then (some x.value, xs)
    else
      let (value, rest) := removeEntry key xs
      (value, x :: rest)

/-- Where no key stands twice, nothing else is taken out. -/
theorem removeEntry_eq (key : Bytes) {xs : List Entry} (h : xs.Pairwise fun a b => a.key < b.key) :
    removeEntry key xs =
      ((xs.find? fun e => e.key = key).map (·.value), xs.filter fun e => e.key ≠ key) := by
  induction xs with
  | nil => rfl
  | cons x xs ih =>
    have ⟨hx, hxs⟩ := List.pairwise_cons.1 h
    rw [removeEntry]
    by_cases hkey : x.key = key
    · have hne : ∀ e ∈ xs, e.key ≠ key := fun e he heq => by
        have hlt := hx e he
        rw [hkey, heq] at hlt
        exact List.lt_irrefl key hlt
      have hrest : xs.filter (fun e => e.key ≠ key) = xs :=
        List.filter_eq_self.2 fun e he => decide_eq_true (hne e he)
      rw [if_pos hkey, List.filter_cons_of_neg (by simpa using hkey), hrest]
      simp [hkey]
    · rw [if_neg hkey, ih hxs]
      simp [hkey]

/-- The value under a key, and the map without the key. -/
def remove (m : KeyMap) (key : Bytes) : Option Bytes × KeyMap :=
  ((removeEntry key m.entries).1,
    ⟨(removeEntry key m.entries).2, by rw [removeEntry_eq key m.sorted]; exact m.sorted.filter _⟩)

/-- The map of a list of entries; of several with one key the last one counts. -/
def ofList (entries : List Entry) : KeyMap :=
  entries.foldr (fun e m => if (m.find? e.key).isSome then m else m.insert e.key e.value) empty

/-- The entries whose keys are not below the start, in ascending order. -/
def startingAt (m : KeyMap) : Option Bytes → List Entry
  | none => m.entries
  | some start => m.entries.filter fun e => ¬ e.key < start

theorem find?_insertEntry (e : Entry) (key : Bytes) (xs : List Entry) :
    (insertEntry e xs).find? (fun x => x.key = key) =
      if e.key = key then some e else xs.find? fun x => x.key = key := by
  induction xs with
  | nil => by_cases h : e.key = key <;> simp [insertEntry, h]
  | cons x xs ih =>
    rw [insertEntry]
    split
    · next hlt =>
      by_cases h : e.key = key <;> simp [h]
    · next hnlt =>
      split
      · next hgt =>
        by_cases hx : x.key = key
        · have : e.key ≠ key := fun h => List.lt_irrefl key (by rw [hx, h] at hgt; exact hgt)
          simp [hx, this]
        · simp [hx, ih]
      · next hngt =>
        have heq : e.key = x.key := eq_of_not_lt hnlt hngt
        by_cases h : e.key = key
        · simp [h]
        · simp [h, heq ▸ h]

theorem find?_insert (m : KeyMap) (k value key : Bytes) :
    (m.insert k value).find? key = if k = key then some value else m.find? key := by
  by_cases h : k = key <;> simp [find?, insert, find?_insertEntry, h]

theorem find?_erase (m : KeyMap) (k key : Bytes) :
    (m.erase k).find? key = if k = key then none else m.find? key := by
  simp only [find?, erase, List.find?_filter]
  by_cases h : k = key
  · subst h
    simp
  · have : (fun e : Entry => !decide (e.key = k) && decide (e.key = key)) =
        fun e => decide (e.key = key) := by
      funext e
      by_cases he : e.key = key <;> simp [he, Ne.symm h]
    simp [h, this]

theorem remove_eq (m : KeyMap) (key : Bytes) : m.remove key = (m.find? key, m.erase key) := by
  simp only [remove, removeEntry_eq key m.sorted]
  rfl

end KeyMap

end NanoLedger
