import NanoLedger.Ledger
import NanoLedger.Proofs.KeyRanges
import NanoLedger.Proofs.Lookups
import NanoLedger.Proofs.Outlook

/-!
# Passes over stores that do not fail

A pass over readable entries gives an item for each of them and meets no failure: its outlook is
known from the entries alone (`Outlook.ofWalk_entries`).

A store serves tables if it shows what they hold (`Store.Serves`); only the empty key may be refused,
which no record refers to (`RecordKind.ne_nil_of_mem_lookups`). A ledger serves its tables
(`Ledger.serves_snapshot`). Over such a store the tables settle whether a pass begins
(`Pass.start_tables_cases`), and every entry is readable. So a pass over a range of keys has the
items of the entries in that range in prospect (`Pass.outlook_ofRange`), and the ranges of a tiling
give together what one pass gives (`Pass.flatMap_itemsIn`).
-/

namespace NanoLedger

variable {α : Type}

/-! ## The outlook of readable entries -/

namespace Outlook

/-- Readable entries within bounds give their items in front of what follows them. -/
theorem ofWalk_append (past : Bytes → Bool) {read : Entry → Except LedgerError α}
    {es : List Entry} (hpast : ∀ e ∈ es, past e.key = false)
    (hread : ∀ e ∈ es, SkipsOnly (read e)) (rest : Walk) :
    ofWalk past read (es.map .ok ++ rest) =
      ⟨es.map (Item.ofEntry read) ++ (ofWalk past read rest).items,
        (ofWalk past read rest).failure⟩ := by
  induction es with
  | nil => rfl
  | cons e es ih =>
    have ih := ih (fun e he => hpast e (.tail _ he)) (fun e he => hread e (.tail _ he))
    rw [List.map_cons, List.cons_append, ofWalk, hpast e (.head _), ih]
    cases hr : read e with
    | ok r => simp [Item.ofEntry, hr, cons]
    | error err =>
      have hskip : err.isSkippable = true := hread e (.head _) err hr
      simp [Item.ofEntry, hr, cons, hskip]

/-- Readable entries give the items of those in front of the first one that is out of bounds, and no
failure. -/
theorem ofWalk_entries {past : Bytes → Bool} {read : Entry → Except LedgerError α}
    {es : List Entry} (hread : ∀ e ∈ es, SkipsOnly (read e)) :
    ofWalk past read (es.map .ok) =
      ⟨(es.takeWhile fun e => !past e.key).map (Item.ofEntry read), none⟩ := by
  have hend : ofWalk past read ((es.dropWhile fun e => !past e.key).map .ok) = {} := by
    have hhead := List.head?_dropWhile_not (fun e : Entry => !past e.key) es
    cases h : es.dropWhile fun e => !past e.key with
    | nil => rfl
    | cons e rest =>
      rw [h] at hhead
      rw [List.map_cons, ofWalk, if_pos (by simpa using hhead)]
  have hpast : ∀ e ∈ es.takeWhile (fun e => !past e.key), past e.key = false := by
    intro e he
    simpa using List.all_eq_true.1 List.all_takeWhile e he
  have happend := ofWalk_append past hpast
    (fun e he => hread e ((List.takeWhile_prefix _).subset he))
    ((es.dropWhile fun e => !past e.key).map .ok)
  rw [← List.map_append, List.takeWhile_append_dropWhile, hend] at happend
  simpa using happend

end Outlook

/-! ## Which pass begins -/

namespace Pass

/-- The pass that begins with a walk through a table. -/
def along (kind : RecordKind) (s : Store) (walk : Walk) (bound : Option Bytes)
    (limit : Option Nat) : Pass kind.Record :=
  { table := kind.table, read := kind.read s, rest := walk, bound, remaining := limit }

/-- A pass that is not strict begins with any walk. -/
theorem inRange_eq_along {kind : RecordKind} {s : Store} {start : Option Bytes} {walk : Walk}
    (h : s.walk kind.table start = .ok walk) (bound : Option Bytes) (limit : Option Nat) :
    inRange kind s start bound limit false = .ok (along kind s walk bound limit) := by
  rw [inRange, h]
  rfl

/-- A strict pass begins with any walk that starts at the first key or is not empty. -/
theorem start_eq_along {kind : RecordKind} {s : Store} {options : PassOptions} {walk : Walk}
    (h : s.walk kind.table options.start = .ok walk) (hne : options.start = none ∨ walk ≠ []) :
    start kind s options = .ok (along kind s walk none options.limit) := by
  rw [start, inRange, h]
  cases hstart : options.start with
  | none => rfl
  | some key =>
    cases walk with
    | nil => simp [hstart] at hne
    | cons x rest => rfl

/-- A strict pass that begins does so with its walk. -/
theorem eq_along_of_start {kind : RecordKind} {s : Store} {options : PassOptions} {walk : Walk}
    {p : Pass kind.Record} (h : s.walk kind.table options.start = .ok walk)
    (hp : start kind s options = .ok p) : p = along kind s walk none options.limit := by
  by_cases hne : options.start = none ∨ walk ≠ []
  · rw [start_eq_along h hne] at hp
    exact (Except.ok.inj hp).symm
  · obtain ⟨hsome, hnil⟩ := not_or.1 hne
    obtain ⟨key, hkey⟩ := Option.ne_none_iff_exists'.1 hsome
    rw [start, inRange, h, hkey, Decidable.not_not.1 hnil] at hp
    cases hp

/-- Over readable entries in ascending order, a pass has the items of those below its bound in
prospect. -/
theorem outlook_along {kind : RecordKind} {s : Store} {es : List Entry}
    (hread : ∀ e ∈ es, SkipsOnly (kind.read s e)) (hes : es.Pairwise fun a b => a.key < b.key)
    (bound : Option Bytes) (limit : Option Nat) :
    (along kind s (es.map .ok) bound limit).outlook =
      ⟨(es.filter fun e => (KeyRange.mk none bound).Contains e.key).map
        (Item.ofEntry (kind.read s)), none⟩ := by
  have hreaches : (fun e : Entry => !(along kind s (es.map .ok) bound limit).reaches e.key) =
      fun e => decide ((KeyRange.mk none bound).Contains e.key) := by
    cases bound with
    | none => simp [reaches, along, KeyRange.Contains]
    | some b => simp [reaches, along, KeyRange.Contains, -List.not_lt]
  rw [← takeWhile_eq_filter (KeyRange.pairwise_contains hes bound), ← hreaches]
  exact Outlook.ofWalk_entries hread

end Pass

/-! ## Stores that serve tables -/

/-- A store that shows what tables hold, except that it may refuse the empty key. -/
structure Store.Serves (s : Store) (ts : Tables) : Prop where
  get_eq : ∀ t key, key ≠ [] → s.get t key = .ok (ts.find? t key)
  walk_eq : ∀ t start, start ≠ some [] → s.walk t start = ts.store.walk t start

theorem Tables.walk_store {ts : Tables} {t : Table} {m : KeyMap} (h : ts.table? t = some m)
    (start : Option Bytes) : ts.store.walk t start = .ok ((m.startingAt start).map .ok) := by
  simp [store, h]

theorem Tables.walk_store_of_none {ts : Tables} {t : Table} (h : ts.table? t = none)
    (start : Option Bytes) : ts.store.walk t start = .error t.missing := by
  simp [store, h]

theorem Tables.serves_store (ts : Tables) : ts.store.Serves ts :=
  ⟨fun _ _ _ => rfl, fun _ _ _ => rfl⟩

theorem Ledger.serves_snapshot (l : Ledger) : l.snapshot.Serves l.tables := by
  constructor
  · intro t key hkey
    simp [snapshot, refuses, hkey, Tables.store]
  · intro t start hstart
    cases start with
    | none => simp [snapshot]
    | some key => simp [snapshot, refuses, show key ≠ [] by simpa using hstart]

theorem Octets.bytes_ne_nil {n : Nat} (o : Octets (n + 1)) : o.bytes ≠ [] :=
  List.ne_nil_of_length_eq_add_one o.length_eq

/-- Records refer to other entries by keys that are not empty. -/
theorem RecordKind.ne_nil_of_mem_lookups {kind : RecordKind} {s : Store} {e : Entry} {q : Lookup}
    (h : q ∈ kind.lookups s e) : q.2 ≠ [] := by
  have owner (account : Account) : (Store.ownerLookup account).2 ≠ [] := account.key.bytes_ne_nil
  cases kind with
  | enrichedBlock | normalizedBlock =>
    simp only [lookups] at h
    split at h
    · next fields _ =>
      rw [Store.blockLookups] at h
      split at h
      · rcases List.mem_cons.1 h with rfl | h
        · exact Octets.bytes_ne_nil fields.previous.octets
        · split at h
          · exact List.mem_singleton.1 h ▸ owner fields.account
          · cases h
      · exact List.mem_singleton.1 h ▸ owner fields.account
    · cases h
  | enrichedAccount | normalizedAccount =>
    simp only [lookups] at h
    split at h
    · next info _ => exact List.mem_singleton.1 h ▸ owner info.account
    · cases h
  | block | account | confirmationHeight | pending | frontier | onlineWeight | peer | metadata
  | unchecked => cases h

/-- Over a store that serves tables every entry is readable. -/
theorem Store.Serves.skipsOnly_read {s : Store} {ts : Tables} (h : s.Serves ts)
    (kind : RecordKind) (e : Entry) : SkipsOnly (kind.read s e) :=
  kind.skipsOnly_read (Store.fault?_eq_none.2 fun q hq =>
    ⟨_, h.get_eq q.1 q.2 (RecordKind.ne_nil_of_mem_lookups hq)⟩)

/-- Over a store that serves tables records are read as over the tables. -/
theorem Store.Serves.read_eq {s : Store} {ts : Tables} (h : s.Serves ts) (kind : RecordKind)
    (e : Entry) : kind.read s e = kind.read ts.store e := by
  have hget : ∀ q ∈ kind.lookups ts.store e, s.get q.1 q.2 = ts.store.get q.1 q.2 := fun q hq =>
    h.get_eq q.1 q.2 (RecordKind.ne_nil_of_mem_lookups hq)
  have hfault : s.fault? (kind.lookups ts.store e) = none :=
    Store.fault?_eq_none.2 fun q hq => ⟨_, hget q hq⟩
  rw [kind.read_eq fun q hq => .inl (hget q hq), hfault]
  rfl

/-- A pass over tables begins with the entries from its start key on, unless the table is missing or
there are none. -/
theorem Pass.start_tables_cases (kind : RecordKind) (s : Store) (ts : Tables)
    (options : PassOptions)
    (h : s.walk kind.table options.start = ts.store.walk kind.table options.start) :
    (ts.table? kind.table = none ∧ start kind s options = .error kind.table.missing) ∨
    ∃ m, ts.table? kind.table = some m ∧
      ((∃ key, options.start = some key ∧ m.startingAt (some key) = [] ∧
          start kind s options = .error (noEntryFrom kind.table key)) ∨
        (options.start = none ∨ m.startingAt options.start ≠ []) ∧
          start kind s options =
            .ok (along kind s ((m.startingAt options.start).map .ok) none options.limit)) := by
  cases hm : ts.table? kind.table with
  | none =>
    rw [start, inRange, h, Tables.walk_store_of_none hm]
    exact .inl ⟨rfl, rfl⟩
  | some m =>
    rw [Tables.walk_store hm] at h
    refine .inr ⟨m, rfl, ?_⟩
    by_cases hne : options.start = none ∨ m.startingAt options.start ≠ []
    · exact .inr ⟨hne, start_eq_along h (by simpa using hne)⟩
    · obtain ⟨hsome, hnil⟩ := not_or.1 hne
      obtain ⟨key, hkey⟩ := Option.ne_none_iff_exists'.1 hsome
      rw [hkey] at h hnil
      refine .inl ⟨key, hkey, Decidable.not_not.1 hnil, ?_⟩
      rw [start, inRange, hkey, h, Decidable.not_not.1 hnil]
      rfl

/-! ## Passes over ranges of keys -/

namespace Pass

/-- The items of the entries of a table from a start key on, as far as a limit admits them. -/
def itemsFrom (kind : RecordKind) (s : Store) (m : KeyMap) (options : PassOptions) :
    List (Item kind.Record) :=
  Item.within options.limit ((m.startingAt options.start).map (Item.ofEntry (kind.read s)))

/-- What a single pass over readable entries gives. -/
theorem prospect_along {kind : RecordKind} {s : Store} (hread : ∀ e, SkipsOnly (kind.read s e))
    (es : List Entry) (limit : Option Nat) :
    (along kind s (es.map .ok) none limit).prospect none =
      ⟨Item.within limit (es.map (Item.ofEntry (kind.read s))), none⟩ := by
  have houtlook : (along kind s (es.map .ok) none limit).outlook =
      ⟨es.map (Item.ofEntry (kind.read s)), none⟩ := by
    have hreads : ∀ e ∈ es, SkipsOnly (kind.read s e) := fun e _ => hread e
    have happend := Outlook.ofWalk_append (fun _ => false) (fun _ _ => rfl) hreads []
    rw [List.append_nil] at happend
    exact happend.trans (by simp [Outlook.ofWalk])
  rw [prospect, houtlook, Outlook.cut_none, Outlook.cut_of_no_failure]
  rfl

/-- The pass over the entries of a table in a range of keys. -/
def ofRange (kind : RecordKind) (s : Store) (m : KeyMap) (r : KeyRange) : Pass kind.Record :=
  along kind s ((m.startingAt r.start).map .ok) r.stop none

/-- The items of the entries of a table in a range of keys. -/
def itemsIn (kind : RecordKind) (s : Store) (m : KeyMap) (r : KeyRange) :
    List (Item kind.Record) :=
  (m.entries.filter fun e => r.Contains e.key).map (Item.ofEntry (kind.read s))

theorem length_itemsIn_le (kind : RecordKind) (s : Store) (m : KeyMap) (r : KeyRange) :
    (itemsIn kind s m r).length ≤ m.size := by
  rw [itemsIn, List.length_map]
  exact List.length_filter_le _ _

variable {kind : RecordKind} {s : Store} {ts : Tables} {m : KeyMap}

theorem inRange_eq_ofRange (h : s.Serves ts) (hm : ts.table? kind.table = some m) {r : KeyRange}
    (hr : r.start ≠ some []) :
    inRange kind s r.start r.stop none false = .ok (ofRange kind s m r) :=
  inRange_eq_along (by rw [h.walk_eq _ _ hr, Tables.walk_store hm]) _ _

/-- A pass over a range of keys has the items of the entries in the range in prospect. -/
theorem outlook_ofRange (h : s.Serves ts) (r : KeyRange) :
    (ofRange kind s m r).outlook = ⟨itemsIn kind s m r, none⟩ := by
  rw [ofRange, outlook_along (fun e _ => h.skipsOnly_read kind e) (m.sorted_startingAt _),
    KeyRange.filter_startingAt, itemsIn]

/-- What a pass over a range of keys gives under a budget. -/
theorem prospect_ofRange (h : s.Serves ts) (r : KeyRange) (b : Budget) :
    (ofRange kind s m r).prospect b = ⟨Item.within b (itemsIn kind s m r), none⟩ := by
  rw [prospect, outlook_ofRange h, Outlook.cut_of_no_failure, Outlook.cut_of_no_failure]
  rfl

/-- The ranges of a tiling give, one after another, the items of the entries from its start on. -/
theorem flatMap_itemsIn {start : Option Bytes} {rs : List KeyRange}
    (h : KeyRange.Tiling start rs) :
    rs.flatMap (itemsIn kind s m) = (m.startingAt start).map (Item.ofEntry (kind.read s)) := by
  rw [KeyMap.startingAt_eq, ← h.flatMap_filter m.sorted, List.map_flatMap]
  rfl

end Pass

end NanoLedger
