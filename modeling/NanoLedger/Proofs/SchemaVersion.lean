import NanoLedger.Proofs.CommandRun
import NanoLedger.Proofs.Queries
import NanoLedger.Proofs.RecordFormats

/-!
# The schema version, by lookup and by pass

The schema version can be asked for, which looks one key up (`Ledger.schemaVersion`), and a pass
through the table `meta` comes to it, which recognises the key by its number. A whole pass gives the
items of all entries, each in its place (`Ledger.start_whole`, `Ledger.run_whole`), so what it lists
is what single entries are read as (`Ledger.lists_iff`). Where all keys have 32 bytes, no entry but
the one that is looked up is read as a version (`MetaEntry.eq_versionKeyBytes`). So the two agree,
on the version as well as on the reasons for which there is none
(`Ledger.schemaVersion_agrees_with_pass`).
-/

namespace NanoLedger

open ByteOrder

/-! ## Whole passes -/

theorem Item.ofEntry_eq_failure {α : Type} {read : Entry → Except LedgerError α} {e : Entry}
    {key : Bytes} {err : LedgerError} :
    Item.ofEntry read e = .failure ⟨key, err⟩ ↔ e.key = key ∧ read e = .error err := by
  rw [Item.ofEntry]
  cases read e <;> simp

namespace Ledger

/-- Whether the pass through a whole table gives an item, sooner or later. -/
def Lists (l : Ledger) (kind : RecordKind) (item : Item kind.Record) : Prop :=
  ∃ p n, Pass.start kind l.snapshot {} = .ok p ∧ some item ∈ (p.run n).1

section

variable (l : Ledger) (kind : RecordKind)

/-- The pass through the whole of a table with the given entries. -/
def whole (m : KeyMap) : Pass kind.Record :=
  Pass.along kind l.snapshot (m.entries.map .ok) none none

/-- A pass through a whole table begins exactly if the table exists. -/
theorem start_whole {p : Pass kind.Record} :
    Pass.start kind l.snapshot {} = .ok p ↔
      ∃ m, l.tables.table? kind.table = some m ∧ p = l.whole kind m := by
  have hwalk := l.serves_snapshot.walk_eq kind.table none nofun
  obtain ⟨hnone, hstart⟩ | ⟨m, hm, ⟨key, hkey, -⟩ | ⟨-, hstart⟩⟩ :=
    Pass.start_tables_cases kind l.snapshot l.tables {} hwalk
  · rw [hstart, hnone]
    exact ⟨nofun, nofun⟩
  · cases hkey
  · rw [hstart, hm, Except.ok.injEq]
    constructor
    · rintro rfl
      exact ⟨m, rfl, rfl⟩
    · rintro ⟨m', hm', rfl⟩
      rw [Option.some.inj hm']
      rfl

/-- A pass through a whole table gives the items of its entries, one after another. -/
theorem run_whole (m : KeyMap) (n : Nat) :
    ((l.whole kind m).run n).1 =
      (List.range n).map ((m.entries.map (Item.ofEntry (kind.read l.snapshot)))[·]?) := by
  obtain ⟨hitems, -⟩ := Pass.run_spec (p := l.whole kind m) rfl n
  rw [hitems, whole, Pass.prospect_along (l.serves_snapshot.skipsOnly_read kind), Item.within]

/-- The item that a whole pass gives at a place is that of the entry at this place. -/
theorem exists_entry_of_run {m : KeyMap} {n i : Nat} {item : Item kind.Record}
    (h : ((l.whole kind m).run n).1[i]? = some (some item)) :
    ∃ e, m.entries[i]? = some e ∧ Item.ofEntry (kind.read l.snapshot) e = item := by
  rw [run_whole, List.getElem?_map] at h
  obtain ⟨i', hi', hitem⟩ := Option.map_eq_some_iff.1 h
  obtain ⟨hlt, rfl⟩ := List.getElem?_eq_some_iff.1 hi'
  rw [List.getElem_range, List.getElem?_map] at hitem
  exact Option.map_eq_some_iff.1 hitem

variable {l kind}

/-- A whole pass lists what the entries of its table are read as. -/
theorem lists_iff {item : Item kind.Record} :
    l.Lists kind item ↔ ∃ e : Entry, l.tables.find? kind.table e.key = some e.value ∧
      Item.ofEntry (kind.read l.snapshot) e = item := by
  constructor
  · rintro ⟨p, n, hp, hitem⟩
    obtain ⟨m, hm, rfl⟩ := (l.start_whole kind).1 hp
    obtain ⟨i, hi⟩ := List.getElem?_of_mem hitem
    obtain ⟨e, he, hread⟩ := l.exists_entry_of_run kind hi
    exact ⟨e, (Tables.mem_entries hm e).1 (List.mem_of_getElem? he), hread⟩
  · rintro ⟨e, hfind, rfl⟩
    obtain ⟨m, hm, -⟩ := Option.bind_eq_some_iff.1 hfind
    obtain ⟨i, hi⟩ := List.getElem?_of_mem ((Tables.mem_entries hm e).2 hfind)
    refine ⟨l.whole kind m, i + 1, (l.start_whole kind).2 ⟨m, hm, rfl⟩, ?_⟩
    rw [run_whole]
    refine List.mem_map.2 ⟨i, List.mem_range.2 (Nat.lt_succ_self i), ?_⟩
    rw [List.getElem?_map, hi, Option.map_some]

end

end Ledger

/-! ## The entry of the version -/

namespace MetaEntry

/-- The version, unless the entry is unrecognised. -/
def number? : MetaEntry → Option UInt64
  | version n => some n
  | unrecognised .. => none

/-- Among keys of 32 bytes, only the one that is the version's begins with it. -/
theorem eq_versionKeyBytes {n : UInt64} {key value : Bytes} (hkey : key.length = 32)
    (h : decode key value = .ok (.version n)) : key = versionKeyBytes := by
  have hone : versionKeyBytes <+: key := by
    rw [versionKeyBytes, encode_eq_spell]
    exact (decode_eq_version.1 h).1
  have hlength : versionKeyBytes.length = key.length := by
    rw [hkey, versionKeyBytes, length_encode]
  exact (hone.eq_of_length hlength).symm

theorem number?_decode_eq_some {key value : Bytes} {n : UInt64} :
    (decode key value).map number? = .ok (some n) ↔ decode key value = .ok (.version n) := by
  cases decode key value with
  | error e => exact ⟨nofun, nofun⟩
  | ok m => cases m <;> simp [Except.map, number?]

theorem number?_decode_eq_error {key value : Bytes} {err : LedgerError} :
    (decode key value).map number? = .error err ↔ decode key value = .error err := by
  cases decode key value with
  | error e => rw [Except.map, Except.error.injEq, Except.error.injEq]
  | ok m => exact ⟨nofun, nofun⟩

theorem word?_eq_none {o : Octets 32} :
    word? o = none ↔ UInt64.size ≤ bigEndian.decode o.bytes := by
  simp [word?]

/-- Under the key of the version there is no version if the number there is no word. -/
theorem number?_decode_eq_none {value : Bytes} :
    (decode versionKeyBytes value).map number? = .ok none ↔
      32 ≤ value.length ∧ UInt64.size ≤ bigEndian.decode (value.take 32) := by
  rw [decode_versionKey]
  cases hparse : (Layout.octets 32).parse value with
  | error e =>
    have hlt : value.length < 32 := ((Layout.octets 32).parse_eq_error value e).1 hparse |>.1
    exact ⟨nofun, fun h => absurd hlt (Nat.not_lt.2 h.1)⟩
  | ok o =>
    have hle : 32 ≤ value.length := (Layout.octets 32).size_le_of_parse hparse
    have htake : value.take 32 = o.bytes := by
      have hprefix : o.bytes <+: value := (Layout.octets 32).parse_eq_ok.1 hparse
      rw [List.prefix_iff_eq_take.1 hprefix, o.length_eq]
    rw [htake, ← word?_eq_none, Except.map, Except.map]
    cases word? o with
    | none => exact ⟨fun _ => ⟨hle, rfl⟩, fun _ => rfl⟩
    | some n => exact ⟨nofun, nofun⟩

end MetaEntry

/-! ## The version by both ways -/

namespace Ledger

open MetaEntry (versionKeyBytes number?)

variable {l : Ledger}

theorem get_versionKey (l : Ledger) : l.snapshot.get .metadata versionKeyBytes =
    .ok (l.tables.find? .metadata versionKeyBytes) :=
  l.serves_snapshot.get_eq .metadata versionKeyBytes (List.cons_ne_nil _ _)

theorem schemaVersion_of_absent (h : l.tables.find? .metadata versionKeyBytes = none) :
    l.schemaVersion = .ok none := by
  rw [schemaVersion, get_versionKey, h]
  rfl

/-- The version is what the entry under its key is read as. -/
theorem schemaVersion_of_entry {value : Bytes}
    (h : l.tables.find? .metadata versionKeyBytes = some value) :
    l.schemaVersion = (MetaEntry.decode versionKeyBytes value).map number? := by
  rw [schemaVersion, get_versionKey, h]
  simp only [bind, Except.bind]
  cases MetaEntry.decode versionKeyBytes value with
  | error e => rfl
  | ok m => cases m <;> rfl

/-- The version depends on the entry under its key only. -/
theorem schemaVersion_congr {l' : Ledger}
    (h : l'.tables.find? .metadata versionKeyBytes = l.tables.find? .metadata versionKeyBytes) :
    l'.schemaVersion = l.schemaVersion := by
  cases hfind : l.tables.find? .metadata versionKeyBytes with
  | none => rw [schemaVersion_of_absent hfind, schemaVersion_of_absent (h.trans hfind)]
  | some value => rw [schemaVersion_of_entry hfind, schemaVersion_of_entry (h.trans hfind)]

/-- Whether all keys of the table `meta` have 32 bytes. -/
def FullMetaKeys (l : Ledger) : Prop :=
  ∀ key value, l.tables.find? .metadata key = some value → key.length = 32

/-- Lookup and pass find the same version. -/
theorem schemaVersion_eq_ok_some (hkeys : l.FullMetaKeys) (v : UInt64) :
    l.schemaVersion = .ok (some v) ↔ l.Lists .metadata (.record (.version v)) := by
  rw [lists_iff]
  constructor
  · intro h
    cases hfind : l.tables.find? .metadata versionKeyBytes with
    | none =>
      rw [schemaVersion_of_absent hfind] at h
      cases h
    | some value =>
      rw [schemaVersion_of_entry hfind, MetaEntry.number?_decode_eq_some] at h
      exact ⟨⟨versionKeyBytes, value⟩, hfind, Item.ofEntry_eq_record.2 h⟩
  · rintro ⟨⟨key, value⟩, hfind, hitem⟩
    have hread : MetaEntry.decode key value = .ok (.version v) := Item.ofEntry_eq_record.1 hitem
    obtain rfl := MetaEntry.eq_versionKeyBytes (hkeys key value hfind) hread
    rw [schemaVersion_of_entry hfind, MetaEntry.number?_decode_eq_some, hread]

/-- There is no version without an entry for it, nor if the number there is no word. -/
theorem schemaVersion_eq_ok_none :
    l.schemaVersion = .ok none ↔ l.tables.Lacks .metadata versionKeyBytes ∨
      ∃ value, l.tables.find? .metadata versionKeyBytes = some value ∧
        32 ≤ value.length ∧ UInt64.size ≤ bigEndian.decode (value.take 32) := by
  rw [Tables.lacks_iff]
  cases hfind : l.tables.find? .metadata versionKeyBytes with
  | none =>
    rw [schemaVersion_of_absent hfind]
    exact ⟨fun _ => .inl nofun, fun _ => rfl⟩
  | some value =>
    rw [schemaVersion_of_entry hfind, MetaEntry.number?_decode_eq_none]
    constructor
    · intro h
      exact .inr ⟨value, rfl, h⟩
    · rintro (hlacks | ⟨value', hvalue, h⟩)
      · exact absurd rfl (hlacks value)
      · rwa [Option.some.inj hvalue]

/-- What keeps the version from being told is what the pass passes its entry over for. -/
theorem schemaVersion_eq_error_iff_lists {err : LedgerError} :
    l.schemaVersion = .error err ↔ l.Lists .metadata (.failure ⟨versionKeyBytes, err⟩) := by
  rw [lists_iff]
  constructor
  · intro h
    cases hfind : l.tables.find? .metadata versionKeyBytes with
    | none =>
      rw [schemaVersion_of_absent hfind] at h
      cases h
    | some value =>
      rw [schemaVersion_of_entry hfind, MetaEntry.number?_decode_eq_error] at h
      exact ⟨⟨versionKeyBytes, value⟩, hfind, Item.ofEntry_eq_failure.2 ⟨rfl, h⟩⟩
  · rintro ⟨⟨key, value⟩, hfind, hitem⟩
    obtain ⟨rfl, hread⟩ := Item.ofEntry_eq_failure.1 hitem
    rw [schemaVersion_of_entry hfind, MetaEntry.number?_decode_eq_error]
    exact hread

/-- A pass finds one version at most. -/
theorem version_unique (hkeys : l.FullMetaKeys) {m : KeyMap}
    (hm : l.tables.table? .metadata = some m) {n i j : Nat} {v w : UInt64}
    (hv : ((l.whole .metadata m).run n).1[i]? = some (some (.record (.version v))))
    (hw : ((l.whole .metadata m).run n).1[j]? = some (some (.record (.version w)))) : i = j := by
  -- whatever the version, it stands under the one key, which has one place in the table
  have hplace {k : Nat} {u : UInt64}
      (h : ((l.whole .metadata m).run n).1[k]? = some (some (.record (.version u)))) :
      (m.entries.map (·.key))[k]? = some versionKeyBytes := by
    obtain ⟨e, he, hitem⟩ := l.exists_entry_of_run .metadata h
    have hfind := (Tables.mem_entries hm e).1 (List.mem_of_getElem? he)
    have hkey := MetaEntry.eq_versionKeyBytes (hkeys e.key e.value hfind)
      (Item.ofEntry_eq_record.1 hitem)
    rw [List.getElem?_map, he, Option.map_some, hkey]
  have hi := hplace hv
  have hlt := (List.getElem?_eq_some_iff.1 hi).1
  exact (List.getElem?_inj hlt m.nodup_keys).1 (hi.trans (hplace hw).symm)

/-- The version that is looked up agrees with the pass through the table `meta`, where all keys have
32 bytes. The pass gives one version at most, and the lookup finds a version exactly if it is the
one that the pass gives. It finds none exactly if there is no entry for it, or a number there that
is no word; and it fails, as a truncated record, exactly if the pass passes over this entry. No
other entry has any influence on it. -/
theorem schemaVersion_agrees_with_pass {l : Ledger} (hkeys : l.FullMetaKeys) :
    (l.tables.table? .metadata ≠ none →
      ∃ p : Pass MetaEntry, Pass.start .metadata l.snapshot {} = .ok p ∧
        ∀ (n i j : Nat) (v w : UInt64), (p.run n).1[i]? = some (some (.record (.version v))) →
          (p.run n).1[j]? = some (some (.record (.version w))) → i = j) ∧
    (∀ v, l.schemaVersion = .ok (some v) ↔ l.Lists .metadata (.record (.version v))) ∧
    (l.schemaVersion = .ok none ↔ l.tables.Lacks .metadata versionKeyBytes ∨
      ∃ value, l.tables.find? .metadata versionKeyBytes = some value ∧
        32 ≤ value.length ∧ UInt64.size ≤ bigEndian.decode (value.take 32)) ∧
    (l.schemaVersion = .error .truncated ↔
      ∃ err, l.Lists .metadata (.failure ⟨versionKeyBytes, err⟩)) ∧
    (∀ err, l.schemaVersion = .error err → err = .truncated) ∧
    ∀ l' : Ledger,
      l'.tables.find? .metadata versionKeyBytes = l.tables.find? .metadata versionKeyBytes →
        l'.schemaVersion = l.schemaVersion := by
  have htruncated (err : LedgerError) (h : l.schemaVersion = .error err) : err = .truncated :=
    ((l.schemaVersion_eq_error err).1 h).2
  refine ⟨?_, schemaVersion_eq_ok_some hkeys, schemaVersion_eq_ok_none, ?_, htruncated,
    fun _ => schemaVersion_congr⟩
  · intro htable
    obtain ⟨m, hm⟩ := Option.ne_none_iff_exists'.1 htable
    exact ⟨l.whole .metadata m, (l.start_whole .metadata).2 ⟨m, hm, rfl⟩,
      fun n i j v w => version_unique hkeys hm⟩
  · constructor
    · intro h
      exact ⟨_, schemaVersion_eq_error_iff_lists.1 h⟩
    · rintro ⟨err, hlists⟩
      have h := schemaVersion_eq_error_iff_lists.2 hlists
      rwa [← htruncated err h]

/-- A ledger of the version 19, with a byte behind it and an entry that is no version. -/
def ofVersion19 : Ledger where
  tables := (Tables.empty.insert .metadata versionKeyBytes (bigEndian.spell 32 19 ++ [0])).insert
    .metadata (bigEndian.spell 32 2) [7]

/-- The pass lists the version that is looked up, and an entry under a key of one byte would not
change it. -/
theorem schemaVersion_agrees_with_pass_ofVersion19 :
    ofVersion19.FullMetaKeys ∧ ofVersion19.schemaVersion = .ok (some 19) ∧
      ofVersion19.Lists .metadata (.record (.version 19)) ∧
      ofVersion19.tables.table? .metadata ≠ none ∧
      (∃ p : Pass MetaEntry, Pass.start .metadata ofVersion19.snapshot {} = .ok p) ∧
      (Ledger.mk (ofVersion19.tables.insert .metadata [5] [])).schemaVersion = .ok (some 19) := by
  have hkeys : ofVersion19.FullMetaKeys := by
    intro key value h
    simp only [ofVersion19, Tables.find?_insert, true_and] at h
    split at h
    · next hkey => rw [← hkey, length_spell]
    split at h
    · next hkey => rw [← hkey, versionKeyBytes, length_encode]
    · cases h
  have htable : ofVersion19.tables.table? .metadata ≠ none := nofun
  have hversion : ofVersion19.schemaVersion = .ok (some 19) := rfl
  obtain ⟨hunique, hsome, -, -, -, hcongr⟩ := schemaVersion_agrees_with_pass hkeys
  obtain ⟨p, hp, -⟩ := hunique htable
  have hsame : (ofVersion19.tables.insert .metadata [5] []).find? .metadata versionKeyBytes =
      ofVersion19.tables.find? .metadata versionKeyBytes := by
    rw [Tables.find?_insert, if_neg (by decide)]
  exact ⟨hkeys, hversion, (hsome 19).1 hversion, htable, ⟨p, hp⟩, (hcongr _ hsame).trans hversion⟩

end Ledger

end NanoLedger
