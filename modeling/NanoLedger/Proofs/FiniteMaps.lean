import NanoLedger.Proofs.Locality

/-!
# Tables as finite maps

Tables in memory are a family of finite maps, and their updates alone determine it. A key has the
value of the last insertion under it, unless a later update erases the key (`Leaves`). One update
sets the answer for its own key and no other one (`Tables.find?_apply`), and by induction this gives
the answer after any updates (`Tables.find?_ofUpdates`). Walks, sizes and removals show the same map
(`Tables.shows_store`, `Tables.exists_entries_of_walk`, `Tables.exists_keys`), so no operation
changes what is said of any other key (`Tables.ofUpdates_refines_maps`).
-/

namespace NanoLedger

/-! ## What updates leave behind -/

/-- The value that an update leaves under its key. -/
def Update.value? : Update → Option Bytes
  | insert _ _ value => some value
  | erase .. => none

theorem Update.eq_insert_iff {u : Update} {t : Table} {key value : Bytes} :
    u = .insert t key value ↔ u.place = (t, key) ∧ u.value? = some value := by
  cases u <;> simp [place, value?, and_assoc]

/-- Updates leave a value under a key if one of them inserts it there and no later one changes the
key. -/
def Leaves (us : List Update) (t : Table) (key value : Bytes) : Prop :=
  ∃ before after, us = before ++ .insert t key value :: after ∧ Untouched after (t, key)

section

variable {us : List Update} {u : Update} {t : Table} {key value : Bytes}

theorem not_leaves_nil : ¬ Leaves [] t key value := by
  rintro ⟨before, after, h, -⟩
  exact List.append_ne_nil_of_right_ne_nil before (List.cons_ne_nil _ after) h.symm

/-- The first update leaves its value only if no other one changes the key. -/
theorem leaves_cons :
    Leaves (u :: us) t key value ↔
      Leaves us t key value ∨ u = .insert t key value ∧ Untouched us (t, key) := by
  constructor
  · rintro ⟨before, after, h, hafter⟩
    cases before with
    | nil =>
      obtain ⟨rfl, rfl⟩ := List.cons.inj h
      exact .inr ⟨rfl, hafter⟩
    | cons u' before =>
      obtain ⟨rfl, rfl⟩ := List.cons.inj h
      exact .inl ⟨before, after, rfl, hafter⟩
  · rintro (⟨before, after, rfl, hafter⟩ | ⟨rfl, hafter⟩)
    · exact ⟨u :: before, after, rfl, hafter⟩
    · exact ⟨[], us, rfl, hafter⟩

theorem untouched_cons {q : Lookup} : Untouched (u :: us) q ↔ u.place ≠ q ∧ Untouched us q :=
  List.forall_mem_cons

end

/-- Whether a walk begins and comes to an entry. -/
def Store.Shows (s : Store) (t : Table) (start : Option Bytes) (e : Entry) : Prop :=
  ∃ walk, s.walk t start = .ok walk ∧ .ok e ∈ walk

namespace Tables

/-! ## Lookups -/

/-- An update sets the answer for its own key and leaves all others. -/
theorem find?_apply (ts : Tables) (u : Update) (t : Table) (key : Bytes) :
    (ts.apply u).find? t key = if u.place = (t, key) then u.value? else ts.find? t key := by
  cases u with
  | insert => simp only [apply, find?_insert, Update.place, Update.value?, Prod.mk.injEq]
  | erase => simp only [apply, find?_erase, Update.place, Update.value?, Prod.mk.injEq]

/-- After updates a key has the value that they leave there, or the one that it had if they do not
change it. -/
theorem find?_updated_eq_some {us : List Update} {t : Table} {key value : Bytes} (ts : Tables) :
    (ts.updated us).find? t key = some value ↔
      Leaves us t key value ∨ Untouched us (t, key) ∧ ts.find? t key = some value := by
  induction us generalizing ts with
  | nil =>
    have huntouched : Untouched [] (t, key) := nofun
    exact ⟨fun h => .inr ⟨huntouched, h⟩, fun h => (h.resolve_left not_leaves_nil).2⟩
  | cons u us ih =>
    have hstep : (ts.updated (u :: us)).find? t key = ((ts.apply u).updated us).find? t key := rfl
    rw [hstep, ih, find?_apply, leaves_cons, untouched_cons, Update.eq_insert_iff]
    -- what the first update does to the key counts only if the others leave the key alone
    by_cases hu : u.place = (t, key)
    · simp [hu, and_comm]
    · simp [hu]

/-- After updates from no table at all, a key has the value that they leave there. -/
theorem find?_ofUpdates {us : List Update} {t : Table} {key value : Bytes} :
    (ofUpdates us).find? t key = some value ↔ Leaves us t key value := by
  have hempty : empty.find? t key ≠ some value := by simp [find?]
  exact (find?_updated_eq_some empty).trans (or_iff_left fun h => hempty h.2)

theorem ofUpdates_append (us : List Update) (u : Update) :
    ofUpdates (us ++ [u]) = (ofUpdates us).apply u := by
  rw [ofUpdates, List.foldl_append]
  rfl

/-! ## Walks and sizes -/

section

variable {ts : Tables} {t : Table} {start : Option Bytes}

theorem walk_store_eq_error {err : LedgerError} :
    ts.store.walk t start = .error err ↔ ¬ (ts.table? t).isSome ∧ err = t.missing := by
  cases hm : ts.table? t with
  | none =>
    rw [walk_store_of_none hm, Except.error.injEq]
    exact ⟨fun h => ⟨nofun, h.symm⟩, fun h => h.2.symm⟩
  | some m =>
    rw [walk_store hm]
    exact ⟨nofun, fun h => absurd rfl h.1⟩

/-- A walk goes through the entries from its start on, each once and in ascending order. -/
theorem exists_entries_of_walk {walk : Walk} (h : ts.store.walk t start = .ok walk) :
    ∃ es : List Entry, walk = es.map .ok ∧ es.Pairwise (fun a b => a.key < b.key) ∧
      ∀ e, e ∈ es ↔ ts.Reaches t start e := by
  cases hm : ts.table? t with
  | none =>
    rw [walk_store_of_none hm] at h
    cases h
  | some m =>
    rw [walk_store hm] at h
    cases h
    exact ⟨m.startingAt start, rfl, m.sorted_startingAt start, Pass.mem_startingAt hm start⟩

/-- A walk comes to the entries from its start on. -/
theorem shows_store {e : Entry} : ts.store.Shows t start e ↔ ts.Reaches t start e := by
  constructor
  · rintro ⟨walk, hwalk, he⟩
    obtain ⟨es, rfl, -, hes⟩ := exists_entries_of_walk hwalk
    obtain ⟨e', he', heq⟩ := List.mem_map.1 he
    exact (hes e).1 (Except.ok.inj heq ▸ he')
  · intro h
    cases hm : ts.table? t with
    | none =>
      rw [Reaches, find?, hm] at h
      cases h.1
    | some m =>
      exact ⟨_, walk_store hm start, List.mem_map_of_mem ((Pass.mem_startingAt hm start e).2 h)⟩

/-- An empty start key is the same as none. -/
theorem walk_store_nil : ts.store.walk t (some []) = ts.store.walk t none := by
  have hall : ∀ m : KeyMap, m.startingAt (some []) = m.startingAt none := by
    intro m
    rw [KeyMap.startingAt_eq, KeyMap.startingAt_eq]
    refine List.filter_congr fun e _ => ?_
    simp
  simp only [store, hall]

/-- A table has as many entries as keys with a value. -/
theorem exists_keys (ts : Tables) (t : Table) :
    ∃ keys : List Bytes, keys.Nodup ∧
      (∀ key, key ∈ keys ↔ ∃ value, ts.find? t key = some value) ∧ ts.size t = keys.length := by
  cases hm : ts.table? t with
  | none => exact ⟨[], .nil, by simp [find?, hm], by simp [size, hm]⟩
  | some m =>
    refine ⟨m.entries.map (·.key), m.nodup_keys, fun key => ?_, by simp [size, KeyMap.size, hm]⟩
    rw [List.mem_map]
    constructor
    · rintro ⟨e, he, rfl⟩
      exact ⟨e.value, (mem_entries hm e).1 he⟩
    · rintro ⟨value, hvalue⟩
      exact ⟨⟨key, value⟩, (mem_entries hm _).2 hvalue, rfl⟩

end

/-! ## Other tables and other keys -/

section

variable {ts : Tables} {u : Update} {t : Table} {key : Bytes}

/-- An update leaves every other table as it is. -/
theorem table?_apply_of_ne (h : u.place.1 ≠ t) : (ts.apply u).table? t = ts.table? t := by
  cases u with
  | insert t' key value => exact (table?_setTable _ _ _ _).trans (if_neg h)
  | erase t' key =>
    rw [apply, erase]
    cases ts.table? t' with
    | none => rfl
    | some m => exact (table?_setTable _ _ _ _).trans (if_neg h)

/-- An update leaves what walks show of other keys. -/
theorem shows_apply_of_ne (h : u.place ≠ (t, key)) (start : Option Bytes) (value : Bytes) :
    (ts.apply u).store.Shows t start ⟨key, value⟩ ↔ ts.store.Shows t start ⟨key, value⟩ := by
  rw [shows_store, shows_store, Reaches, Reaches, find?_apply, if_neg h]

end

/-! ## All operations -/

/-- Tables in memory are finite maps. Whatever the updates were, looking a key up finds the value
that they leave under it, and nothing if they leave none, and removing the key gives the same. A
table has as many entries as keys with a value. A walk fails exactly if nothing was ever inserted
into its table, even if nothing is left of it; otherwise it goes through the keys from its start on
with the values that were left there, each once and in ascending order, and an empty start is none.

One more update leaves the answers for every other key, and those of every other table. -/
theorem ofUpdates_refines_maps (us : List Update) :
    let ts := ofUpdates us
    (∀ t key value, ts.store.get t key = .ok (some value) ↔ Leaves us t key value) ∧
    (∀ t key, ts.store.get t key = .ok none ↔ ∀ value, ¬ Leaves us t key value) ∧
    (∀ t key, ts.store.get t key = .ok (ts.remove t key).1 ∧
      (ts.remove t key).2 = ofUpdates (us ++ [.erase t key])) ∧
    (∀ t, ∃ keys : List Bytes, keys.Nodup ∧
      (∀ key, key ∈ keys ↔ ∃ value, Leaves us t key value) ∧ ts.size t = keys.length) ∧
    (∀ t start err, ts.store.walk t start = .error err ↔
      ¬ (∃ key value, .insert t key value ∈ us) ∧ err = t.missing) ∧
    (∀ t start walk, ts.store.walk t start = .ok walk →
      ∃ es : List Entry, walk = es.map .ok ∧ es.Pairwise (fun a b => a.key < b.key) ∧
        ∀ e, e ∈ es ↔ Leaves us t e.key e.value ∧ ∀ key ∈ start, key ≤ e.key) ∧
    (∀ t, ts.store.walk t (some []) = ts.store.walk t none) ∧
    ∀ u, let ts' := ofUpdates (us ++ [u])
      (∀ t key, u.place ≠ (t, key) → ts'.store.get t key = ts.store.get t key ∧
        (ts'.remove t key).1 = (ts.remove t key).1 ∧
        ∀ start value, ts'.store.Shows t start ⟨key, value⟩ ↔ ts.store.Shows t start ⟨key, value⟩) ∧
      ∀ t, u.place.1 ≠ t → ts'.size t = ts.size t ∧
        ∀ start, ts'.store.walk t start = ts.store.walk t start := by
  intro ts
  have hfind (t : Table) (key value : Bytes) :
      ts.find? t key = some value ↔ Leaves us t key value := find?_ofUpdates
  refine ⟨fun t key value => ?_, fun t key => ?_, fun t key => ?_, fun t => ?_,
    fun t start err => ?_, fun t start walk hwalk => ?_, fun t => walk_store_nil, fun u => ?_⟩
  · rw [get_store, Except.ok.injEq, hfind]
  · simp only [get_store, Except.ok.injEq, Option.eq_none_iff_forall_ne_some, ne_eq, hfind]
  · rw [remove_eq, ofUpdates_append]
    exact ⟨rfl, rfl⟩
  · obtain ⟨keys, hnodup, hkeys, hsize⟩ := ts.exists_keys t
    simp only [hfind] at hkeys
    exact ⟨keys, hnodup, hkeys, hsize⟩
  · rw [walk_store_eq_error, isSome_table?_ofUpdates]
  · obtain ⟨es, rfl, hsorted, hes⟩ := exists_entries_of_walk hwalk
    simp only [Reaches, hfind] at hes
    exact ⟨es, rfl, hsorted, hes⟩
  · rw [ofUpdates_append]
    refine ⟨fun t key hne => ?_, fun t hne => ?_⟩
    · have hsame : ((ofUpdates us).apply u).find? t key = ts.find? t key :=
        find?_apply_of_ne hne
      refine ⟨congrArg Except.ok hsame, ?_, shows_apply_of_ne hne⟩
      rw [remove_eq, remove_eq, hsame]
    · have hsame : ((ofUpdates us).apply u).table? t = ts.table? t := table?_apply_of_ne hne
      refine ⟨by rw [size, size, hsame], fun start => ?_⟩
      simp only [store, hsame]

/-- Updates that replace a value, empty a table, and insert keys in descending order. -/
def rewritten : List Update :=
  [.insert .metadata [3] [30], .insert .metadata [2] [20], .insert .metadata [1] [10],
    .insert .blocks [9] [90], .erase .metadata [3], .erase .blocks [9],
    .insert .metadata [1] [11]]

/-- The key one has its second value, the key three has none, and the emptied table is walked to no
entry. Without the key one, the key two and the other table are as before. -/
theorem ofUpdates_refines_maps_rewritten :
    (Leaves rewritten .metadata [1] [11] ∧ ∀ value, ¬ Leaves rewritten .metadata [3] value) ∧
      ((ofUpdates rewritten).store.walk .blocks none = .ok [] ∧
        ∀ key value, ¬ Leaves rewritten .blocks key value) ∧
      ((Update.erase .metadata [1]).place ≠ (.metadata, [2]) ∧
        (ofUpdates (rewritten ++ [.erase .metadata [1]])).store.get .metadata [2] =
          .ok (some [20])) ∧
      (Update.erase .metadata [1]).place.1 ≠ .blocks ∧
        (ofUpdates (rewritten ++ [.erase .metadata [1]])).store.walk .blocks none = .ok [] := by
  obtain ⟨hsome, hnone, -, -, -, hwalk, -, hstep⟩ := ofUpdates_refines_maps rewritten
  have hempty : (ofUpdates rewritten).store.walk .blocks none = .ok [] := rfl
  have hkey : (Update.erase .metadata [1]).place ≠ (.metadata, [2]) := by decide
  have htable : (Update.erase .metadata [1]).place.1 ≠ .blocks := by decide
  obtain ⟨hkeys, htables⟩ := hstep (.erase .metadata [1])
  refine ⟨⟨(hsome _ _ _).1 rfl, (hnone _ _).1 rfl⟩, ⟨hempty, fun key value h => ?_⟩,
    ⟨hkey, (hkeys _ _ hkey).1⟩, htable, ((htables _ htable).2 none).trans hempty⟩
  obtain ⟨es, hnil, -, hes⟩ := hwalk _ _ _ hempty
  obtain rfl := List.map_eq_nil_iff.1 hnil.symm
  exact List.not_mem_nil ((hes ⟨key, value⟩).2 ⟨h, atOrAfter_none key⟩)

end Tables

end NanoLedger
