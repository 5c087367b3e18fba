import NanoLedger.Proofs.RecordFormats
import NanoLedger.RecordKind
import NanoLedger.Store.Tables

/-!
# The bytes that a record needs

A record that is made of its own entry alone needs a key of a certain length and a value of a length
that depends on the kind of record and, in three tables, on what stands in the entry
(`RecordKind.keySize`, `RecordKind.valueSize`). Reading it fails for shorter entries and for
unchecked blocks of an unknown tag, and then for the first of these reasons (`RecordKind.Fails`). A
record that was read is also read from every other entry with the same bytes where its fields stand
(`RecordKind.SameFields`); only opaque blocks and unrecognised metadata hold more than that, and
they hold all that there is (`RecordKind.refill`).

For six of the tables both laws come from the layouts of key and value (`Schema.by_lengths`). The
other three have one lemma for failures (`decode_eq_error`) and one for entries with the same fields
(`decode_of_sameFields`) each; `RecordKind.read_by_lengths` puts all of them together.
-/

namespace NanoLedger

open ByteOrder

/-! ## Thresholds -/

namespace StoredKind

/-- The number of bytes of an unchecked block of a kind, tag and trailer among them. -/
def uncheckedSize : StoredKind → Nat
  | send => 194
  | receive => 178
  | opening => 210
  | change => 178
  | state => 258

/-- The number of bytes that a tag demands, by the kind to which it belongs. A tag of no kind
demands no more than itself. -/
def sizeOfTag (size : StoredKind → Nat) : UInt8 → Nat
  | 2 => size .send
  | 3 => size .receive
  | 4 => size .opening
  | 5 => size .change
  | 6 => size .state
  | _ => 1

theorem size_unchecked (k : StoredKind) :
    (k.payloadLayout.pair UncheckedInfo.trailer).size + 1 = k.uncheckedSize := by
  cases k <;> rfl

theorem sizeOfTag_tag (size : StoredKind → Nat) (k : StoredKind) :
    sizeOfTag size k.tag = size k := by
  cases k <;> rfl

theorem sizeOfTag_unknown (size : StoredKind → Nat) {t : UInt8} (h : ∀ k : StoredKind, t ≠ k.tag) :
    sizeOfTag size t = 1 := by
  unfold sizeOfTag
  split
  · exact absurd rfl (h .send)
  · exact absurd rfl (h .receive)
  · exact absurd rfl (h .opening)
  · exact absurd rfl (h .change)
  · exact absurd rfl (h .state)
  · rfl

end StoredKind

/-- The byte with which a value begins, where blocks have their tag. -/
def Entry.tag (e : Entry) : UInt8 := e.value.headD 0

/-- A block whose opaque contents, if it has any, are those of a value. -/
def Block.refill (value : Bytes) : Block → Block
  | unsupported tag _ => unsupported tag value.tail
  | b => b

namespace RecordKind

/-- The kinds whose records are made of their own entry alone. -/
def own : List RecordKind :=
  [block, account, confirmationHeight, pending, frontier, onlineWeight, peer, metadata, unchecked]

/-- The number of bytes that the fields in a key take. -/
def keySize : RecordKind → Nat
  | pending | unchecked => 64
  | onlineWeight => 8
  | peer => 18
  | block | enrichedBlock | normalizedBlock | account | enrichedAccount | normalizedAccount
  | confirmationHeight | frontier | metadata => 32

/-- The number of bytes that the fields in a value take. It depends on the tag of a block, and on
whether the key is that of the schema version. -/
def valueSize (e : Entry) : RecordKind → Nat
  | block | enrichedBlock | normalizedBlock => StoredKind.sizeOfTag StoredKind.size e.tag
  | account | enrichedAccount | normalizedAccount => 128
  | confirmationHeight => 40
  | pending => 49
  | frontier => 32
  | onlineWeight => 16
  | peer => 0
  | metadata => if bigEndian.spell 32 1 <+: e.key then 32 else 0
  | unchecked => StoredKind.sizeOfTag StoredKind.uncheckedSize e.tag

/-- For what reason an entry holds no record, the key before the value and the length of the value
before its tag. -/
inductive Fails (kind : RecordKind) (e : Entry) : LedgerError → Prop
  | shortKey : e.key.length < kind.keySize → Fails kind e .truncated
  | shortValue : kind.keySize ≤ e.key.length → e.value.length < kind.valueSize e →
      Fails kind e .truncated
  | unknownTag : kind.keySize ≤ e.key.length → kind.valueSize e ≤ e.value.length →
      kind = unchecked → e.tag ∉ [2, 3, 4, 5, 6] → Fails kind e (.unsupported e.tag)

/-- Whether two entries have the same bytes where the fields of a kind stand. -/
def SameFields (kind : RecordKind) (e e' : Entry) : Prop :=
  e'.key.take kind.keySize = e.key.take kind.keySize ∧
    e'.value.take (kind.valueSize e) = e.value.take (kind.valueSize e)

/-- A record with what it holds beside its fields taken from an entry. -/
def refill (e : Entry) : (kind : RecordKind) → kind.Record → kind.Record
  | block, r => { r with block := r.block.refill e.value }
  | metadata, .unrecognised _ _ => .unrecognised (Hex.encode e.key) (Hex.encode e.value)
  | _, r => r

/-- All kinds but unchecked blocks fail for missing bytes only. -/
theorem fails_iff (kind : RecordKind) (hkind : kind ≠ unchecked) (e : Entry) (err : LedgerError) :
    kind.Fails e err ↔
      (e.key.length < kind.keySize ∨ e.value.length < kind.valueSize e) ∧ err = .truncated := by
  constructor
  · intro h
    cases h with
    | shortKey hkey => exact ⟨.inl hkey, rfl⟩
    | shortValue _ hvalue => exact ⟨.inr hvalue, rfl⟩
    | unknownTag _ _ h => exact absurd h hkind
  · rintro ⟨hshort, rfl⟩
    by_cases hkey : e.key.length < kind.keySize
    · exact .shortKey hkey
    · exact .shortValue (Nat.not_lt.1 hkey) (hshort.resolve_left hkey)

end RecordKind

/-! ## One layout for the key, one for the value -/

/-- Bytes with which one string begins are those with which every other one begins that agrees with
it so far. -/
theorem prefix_of_take {a x y : Bytes} {n : Nat} (hlength : a.length = n)
    (htake : y.take n = x.take n) (h : a <+: x) : a <+: y := by
  have ha : a = y.take n := by rw [htake, ← hlength, ← List.prefix_iff_eq_take.1 h]
  rw [ha]
  exact List.take_prefix n y

theorem length_of_take {x y : Bytes} {n : Nat} (htake : y.take n = x.take n) (h : n ≤ x.length) :
    n ≤ y.length := by
  have hlength := congrArg List.length htake
  rw [List.length_take, List.length_take] at hlength
  omega

section

variable {α κ ν : Type}

/-- A kind whose fields are those of a schema fails for missing bytes only, and a record depends on
the bytes of its fields only. -/
theorem Schema.by_lengths (s : Schema α κ ν) (kind : RecordKind) (hkind : kind ≠ .unchecked)
    (e : Entry) (hkey : s.key.size = kind.keySize) (hvalue : s.value.size = kind.valueSize e) :
    (∀ err, s.decode e.key e.value = .error err ↔ kind.Fails e err) ∧
    ∀ a, s.decode e.key e.value = .ok a → ∀ e', kind.SameFields e e' →
      s.decode e'.key e'.value = .ok a := by
  constructor
  · intro err
    rw [s.decode_eq_error, kind.fails_iff hkind, hkey, hvalue]
  · rintro a h e' ⟨htake, htake'⟩
    obtain ⟨hstored, hbegins, hbegins'⟩ := s.decode_eq_ok.1 h
    have hlength : (s.writeKey a).length = kind.keySize := (s.key.length_write _).trans hkey
    have hlength' : (s.writeValue a).length = kind.valueSize e :=
      (s.value.length_write _).trans hvalue
    exact s.decode_eq_ok.2 ⟨hstored, prefix_of_take hlength htake hbegins,
      prefix_of_take hlength' htake' hbegins'⟩

/-- Where a key is read before something else, the first of the two to fail decides. -/
theorem Layout.parse_bind_eq_error (l : Layout κ) (key : Bytes) (v : Except LedgerError ν)
    (f : κ → ν → α) (e : LedgerError) :
    (do let k ← l.parse key; let x ← v; return f k x) = .error e ↔
      key.length < l.size ∧ e = .truncated ∨ l.size ≤ key.length ∧ v = .error e := by
  cases hk : l.parse key with
  | error e' =>
    obtain ⟨hlt, rfl⟩ := (l.parse_eq_error key e').1 hk
    constructor
    · rintro ⟨⟩
      exact .inl ⟨hlt, rfl⟩
    · rintro (⟨-, rfl⟩ | ⟨hle, -⟩)
      · rfl
      · omega
  | ok k =>
    have hle := l.size_le_of_parse hk
    cases v with
    | error e' =>
      constructor
      · rintro ⟨⟩
        exact .inr ⟨hle, rfl⟩
      · rintro (⟨hlt, -⟩ | ⟨-, ⟨⟩⟩)
        · omega
        · rfl
    | ok x =>
      constructor
      · rintro ⟨⟩
      · rintro (⟨hlt, -⟩ | ⟨-, ⟨⟩⟩)
        omega

end

/-! ## Stored blocks -/

namespace Block

/-- A value is short if it has fewer bytes than its tag demands. -/
theorem short_iff (value : Bytes) :
    Short value ↔ value.length < StoredKind.sizeOfTag StoredKind.size (value.headD 0) := by
  obtain rfl | ⟨k, rest, rfl⟩ | ⟨t, rest, rfl, ht⟩ := value_cases value
  · exact ⟨fun _ => by decide, fun _ => .inl rfl⟩
  · rw [List.headD_cons, StoredKind.sizeOfTag_tag, short_tag]
  · rw [List.headD_cons, StoredKind.sizeOfTag_unknown _ ht]
    constructor
    · rintro (hnil | ⟨k, rest', hk, -⟩)
      · cases hnil
      · cases hk
        exact absurd rfl (ht k)
    · intro hlt
      rw [List.length_cons] at hlt
      omega

theorem length_stored_block (k : StoredKind) (c : k.Contents) :
    (k.block c).stored.length = k.size := by
  rw [← encode_eq_stored, k.encode_block, List.length_cons, Layout.length_write, k.size_layout]

theorem refill_block (k : StoredKind) (c : k.Contents) (value : Bytes) :
    (k.block c).refill value = k.block c := by
  cases k <;> rfl

/-- A block depends on the bytes of its fields only, but for opaque ones. -/
theorem decode_of_take {value value' : Bytes} {b : Block} (h : decode value = .ok b)
    (htake : value'.take (StoredKind.sizeOfTag StoredKind.size (value.headD 0)) =
      value.take (StoredKind.sizeOfTag StoredKind.size (value.headD 0))) :
    decode value' = .ok (b.refill value') := by
  obtain rfl | ⟨k, rest, rfl⟩ | ⟨t, rest, rfl, ht⟩ := value_cases value
  · cases h
  · obtain ⟨c, -, rfl⟩ := eq_block_of_decode h
    have hblock := k.type?_block c
    rw [List.headD_cons, StoredKind.sizeOfTag_tag] at htake
    rw [refill_block, decode_eq_ok hblock]
    exact prefix_of_take (length_stored_block k c) htake ((decode_eq_ok hblock _).1 h)
  · rw [decode_unknown ht] at h
    cases h
    rw [List.headD_cons, StoredKind.sizeOfTag_unknown _ ht] at htake
    cases value' with
    | nil => cases htake
    | cons t' rest' =>
      cases htake
      exact decode_unknown ht rest'

end Block

namespace BlockRecord

theorem decode_eq_error (e : Entry) (err : LedgerError) :
    decode e.key e.value = .error err ↔ RecordKind.block.Fails e err := by
  refine (Layout.parse_bind_eq_error _ e.key _ _ err).trans ?_
  rw [Block.decode_eq_error, Block.short_iff]
  constructor
  · rintro (⟨hkey, rfl⟩ | ⟨hkey, hvalue, rfl⟩)
    · exact .shortKey hkey
    · exact .shortValue hkey hvalue
  · intro h
    cases h with
    | shortKey hkey => exact .inl ⟨hkey, rfl⟩
    | shortValue hkey hvalue => exact .inr ⟨hkey, hvalue, rfl⟩
    | unknownTag _ _ hkind => cases hkind

/-- A record is the hash that its key holds and the block that its value holds. -/
theorem decode_eq_ok {key value : Bytes} {r : BlockRecord} :
    decode key value = .ok r ↔
      (Identifier.layout .blockHash).parse key = .ok r.hash ∧ Block.decode value = .ok r.block := by
  rw [decode]
  cases (Identifier.layout .blockHash).parse key with
  | error e => exact ⟨nofun, nofun⟩
  | ok hash =>
    cases Block.decode value with
    | error e => exact ⟨nofun, nofun⟩
    | ok block =>
      constructor
      · rintro ⟨⟩
        exact ⟨rfl, rfl⟩
      · rintro ⟨⟨⟩, ⟨⟩⟩
        rfl

theorem decode_of_sameFields {e e' : Entry} {r : BlockRecord} (h : decode e.key e.value = .ok r)
    (hsame : RecordKind.block.SameFields e e') :
    decode e'.key e'.value = .ok (RecordKind.refill e' .block r) := by
  obtain ⟨hkey, hvalue⟩ := hsame
  obtain ⟨hhash, hblock⟩ := decode_eq_ok.1 h
  refine decode_eq_ok.2 ⟨?_, Block.decode_of_take hblock hvalue⟩
  rw [Layout.parse_eq_ok] at hhash ⊢
  exact prefix_of_take (Layout.length_write _ _) hkey hhash

end BlockRecord

/-! ## Unchecked blocks -/

namespace UncheckedInfo

/-- A value fails for its length first and for its tag then. -/
theorem readValue_eq_error (value : Bytes) (e : LedgerError) :
    readValue.eval value = .error e ↔
      value.length < StoredKind.sizeOfTag StoredKind.uncheckedSize (value.headD 0) ∧
          e = .truncated ∨
        StoredKind.sizeOfTag StoredKind.uncheckedSize (value.headD 0) ≤ value.length ∧
          value.headD 0 ∉ [2, 3, 4, 5, 6] ∧ e = .unsupported (value.headD 0) := by
  rw [← StoredKind.unknown_iff]
  obtain rfl | ⟨k, rest, rfl⟩ | ⟨t, rest, rfl, ht⟩ := Block.value_cases value
  · rw [readValue_nil]
    constructor
    · rintro ⟨⟩
      exact .inl ⟨by decide, rfl⟩
    · rintro (⟨-, rfl⟩ | ⟨hle, -⟩)
      · rfl
      · exact absurd hle (by decide)
  · rw [List.headD_cons, StoredKind.sizeOfTag_tag, readValue_tag, List.length_cons,
      ← k.size_unchecked, Nat.add_lt_add_iff_right, ← Layout.parse_eq_error]
    cases (k.payloadLayout.pair trailer).parse rest with
    | error e' =>
      constructor
      · rintro ⟨⟩
        exact .inl rfl
      · rintro (⟨⟨⟩⟩ | ⟨-, hk, -⟩)
        · rfl
        · exact absurd rfl (hk k)
    | ok x =>
      constructor
      · rintro ⟨⟩
      · rintro (⟨⟨⟩⟩ | ⟨-, hk, -⟩)
        exact absurd rfl (hk k)
  · rw [List.headD_cons, StoredKind.sizeOfTag_unknown _ ht, readValue_unknown ht, List.length_cons]
    constructor
    · rintro ⟨⟩
      exact .inr ⟨by omega, ht, rfl⟩
    · rintro (⟨hlt, -⟩ | ⟨-, -, rfl⟩)
      · omega
      · rfl

theorem decode_eq_error (e : Entry) (err : LedgerError) :
    decode e.key e.value = .error err ↔ RecordKind.unchecked.Fails e err := by
  refine (Layout.parse_bind_eq_error keyLayout e.key (readValue.eval e.value)
    (fun k x => UncheckedInfo.mk k.1 k.2 x.1 x.2.1 x.2.2.1 (.ofByte x.2.2.2)) err).trans ?_
  rw [readValue_eq_error]
  constructor
  · rintro (⟨hkey, rfl⟩ | ⟨hkey, ⟨hvalue, rfl⟩ | ⟨hvalue, htag, rfl⟩⟩)
    · exact .shortKey hkey
    · exact .shortValue hkey hvalue
    · exact .unknownTag hkey hvalue rfl htag
  · intro h
    cases h with
    | shortKey hkey => exact .inl ⟨hkey, rfl⟩
    | shortValue hkey hvalue => exact .inr ⟨hkey, .inl ⟨hvalue, rfl⟩⟩
    | unknownTag hkey hvalue _ htag => exact .inr ⟨hkey, .inr ⟨hvalue, htag, rfl⟩⟩

/-- The entry of a block of a known kind begins with the tag of the kind and is as long as that
demands. -/
theorem entry_value_eq_cons {u : UncheckedInfo} {k : StoredKind} {fields : k.Fields}
    (hblock : u.block = k.payload fields) :
    ∃ tail, u.entry.value = k.tag :: tail ∧ u.entry.value.length = k.uncheckedSize := by
  have hvalue : u.entry.value = k.tag ::
      (k.payloadLayout.pair trailer).write
        (fields, u.account, u.modified, u.verified.toByte) := by
    rw [← writeValue_eq, writeValue_eq_append, hblock, Payload.stored_payload]
    rfl
  refine ⟨_, hvalue, ?_⟩
  rw [hvalue, List.length_cons, Layout.length_write, k.size_unchecked]

theorem decode_of_sameFields {e e' : Entry} {u : UncheckedInfo} (h : decode e.key e.value = .ok u)
    (hsame : RecordKind.unchecked.SameFields e e') : decode e'.key e'.value = .ok u := by
  obtain ⟨hkey, hvalue⟩ := hsame
  obtain ⟨hbyte, hknown, hbegins, hbegins'⟩ := (decode_eq_ok u e.key e.value).1 h
  refine (decode_eq_ok u e'.key e'.value).2 ⟨hbyte, hknown, ?_, ?_⟩
  · rw [← writeKey_eq] at hbegins ⊢
    exact prefix_of_take (keyLayout.length_write _) hkey hbegins
  · obtain ⟨k, fields, hblock⟩ := hknown
    -- the value begins with the tag of the record, which gives the number of its bytes
    obtain ⟨tail, hentry, hlength⟩ := entry_value_eq_cons hblock
    have htag : e.tag = k.tag := by
      obtain ⟨rest, hrest⟩ := hbegins'
      rw [Entry.tag, ← hrest, hentry]
      rfl
    have hsize : RecordKind.unchecked.valueSize e = k.uncheckedSize := by
      rw [RecordKind.valueSize, htag, StoredKind.sizeOfTag_tag]
    rw [hsize] at hvalue
    exact prefix_of_take hlength hvalue hbegins'

end UncheckedInfo

/-! ## Metadata -/

namespace MetaEntry

theorem length_le_of_begins {n : UInt64} {key value : Bytes}
    (h : (versionEntry n).Begins key value) :
    32 ≤ key.length ∧ 32 ≤ value.length := by
  have hkey := h.1.length_le
  have hvalue := h.2.length_le
  rw [versionEntry, length_spell] at hkey hvalue
  exact ⟨hkey, hvalue⟩

theorem decode_eq_error (e : Entry) (err : LedgerError) :
    decode e.key e.value = .error err ↔ RecordKind.metadata.Fails e err := by
  have hreads := reads_decode e.key e.value
  constructor
  · intro h
    rw [h] at hreads
    cases hreads with
    | shortKey hlt => exact .shortKey hlt
    | shortVersion hone hlt =>
      have hkey := hone.length_le
      rw [length_spell] at hkey
      exact .shortValue hkey (by rwa [RecordKind.valueSize, if_pos hone])
  · intro h
    obtain ⟨hshort, rfl⟩ := (RecordKind.fails_iff .metadata nofun e err).1 h
    rw [RecordKind.keySize, RecordKind.valueSize] at hshort
    generalize decode e.key e.value = result at hreads ⊢
    cases hreads with
    | shortKey => rfl
    | shortVersion => rfl
    | otherKey hle hother =>
      rw [if_neg hother] at hshort
      omega
    | version hbegins =>
      obtain ⟨hkey, hvalue⟩ := length_le_of_begins hbegins
      split at hshort <;> omega
    | longVersion hone hle =>
      have hkey := hone.length_le
      rw [length_spell] at hkey
      rw [if_pos hone] at hshort
      omega

/-- The first bytes of the entry of a version, as far as its fields reach. -/
theorem begins_of_take {n : UInt64} {key value key' value' : Bytes}
    (h : (versionEntry n).Begins key value) (hkey : key'.take 32 = key.take 32)
    (hvalue : value'.take 32 = value.take 32) : (versionEntry n).Begins key' value' :=
  ⟨prefix_of_take (bigEndian.length_spell 32 1) hkey h.1,
    prefix_of_take (bigEndian.length_spell 32 n.toNat) hvalue h.2⟩

theorem decode_of_sameFields {e e' : Entry} {m : MetaEntry} (h : decode e.key e.value = .ok m)
    (hsame : RecordKind.metadata.SameFields e e') :
    decode e'.key e'.value = .ok (RecordKind.refill e' .metadata m) := by
  obtain ⟨hkey, hvalue⟩ := hsame
  rw [RecordKind.keySize] at hkey
  rw [RecordKind.valueSize] at hvalue
  have hone : bigEndian.spell 32 1 <+: e'.key → bigEndian.spell 32 1 <+: e.key :=
    prefix_of_take (length_spell _ _ _) hkey.symm
  have hreads := reads_decode e.key e.value
  rw [h] at hreads
  cases hreads with
  | otherKey hle hother =>
    have hother' : ¬ bigEndian.spell 32 1 <+: e'.key := fun h => hother (hone h)
    exact decode_eq_unrecognised (length_of_take hkey hle) (fun h => absurd h hother')
      fun n hbegins => hother' hbegins.1
  | version hbegins =>
    have hpos : bigEndian.spell 32 1 <+: e.key := hbegins.1
    rw [if_pos hpos] at hvalue
    exact decode_eq_version.2 (begins_of_take hbegins hkey hvalue)
  | longVersion hpos hle hnone =>
    rw [if_pos hpos] at hvalue
    have hlength := hpos.length_le
    rw [length_spell] at hlength
    exact decode_eq_unrecognised (length_of_take hkey hlength)
      (fun _ => length_of_take hvalue hle)
      fun n hbegins => hnone n (begins_of_take hbegins hkey.symm hvalue.symm)

end MetaEntry

/-! ## All of them -/

namespace RecordKind

/-- Which entries hold a record, and how much of them the record depends on. For a kind whose
records are made of their own entry alone, reading fails for the reasons that `Fails` lists and for
no other; and an entry with the same bytes where the fields stand holds the same record, but for
opaque contents of a block and for unrecognised metadata, which are all that the entry has. -/
theorem read_by_lengths {kind : RecordKind} (hkind : kind ∈ own) (s : Store) (e : Entry) :
    (∀ err, kind.read s e = .error err ↔ kind.Fails e err) ∧
    ∀ record, kind.read s e = .ok record → ∀ (s' : Store) (e' : Entry), kind.SameFields e e' →
      kind.read s' e' = .ok (refill e' kind record) := by
  cases kind with
  | enrichedBlock | normalizedBlock | enrichedAccount | normalizedAccount =>
    exact absurd hkind (by decide)
  | block =>
    exact ⟨BlockRecord.decode_eq_error e, fun r h _ e' => BlockRecord.decode_of_sameFields h⟩
  | metadata =>
    exact ⟨MetaEntry.decode_eq_error e, fun m h _ e' => MetaEntry.decode_of_sameFields h⟩
  | unchecked =>
    exact ⟨UncheckedInfo.decode_eq_error e, fun u h _ e' => UncheckedInfo.decode_of_sameFields h⟩
  | account =>
    obtain ⟨hfails, hsame⟩ := AccountInfo.schema.by_lengths account nofun e rfl rfl
    exact ⟨hfails, fun a h _ => hsame a h⟩
  | confirmationHeight =>
    obtain ⟨hfails, hsame⟩ :=
      ConfirmationHeight.schema.by_lengths confirmationHeight nofun e rfl rfl
    exact ⟨hfails, fun c h _ => hsame c h⟩
  | pending =>
    obtain ⟨hfails, hsame⟩ := PendingInfo.schema.by_lengths pending nofun e rfl rfl
    exact ⟨hfails, fun p h _ => hsame p h⟩
  | frontier =>
    obtain ⟨hfails, hsame⟩ := FrontierInfo.schema.by_lengths frontier nofun e rfl rfl
    exact ⟨hfails, fun f h _ => hsame f h⟩
  | onlineWeight =>
    obtain ⟨hfails, hsame⟩ := OnlineWeight.schema.by_lengths onlineWeight nofun e rfl rfl
    exact ⟨hfails, fun w h _ => hsame w h⟩
  | peer =>
    obtain ⟨hfails, hsame⟩ := PeerInfo.schema.by_lengths peer nofun e rfl rfl
    exact ⟨hfails, fun p h _ => hsame p h⟩

/-- Values of the unknown tag seven: refused among unchecked blocks, and kept among blocks, with all
the bytes that they have. -/
theorem read_by_lengths_tagSeven :
    unchecked ∈ own ∧
      unchecked.read Tables.empty.store ⟨List.replicate 64 0, [7]⟩ = .error (.unsupported 7) ∧
      block ∈ own ∧
      block.read Tables.empty.store ⟨List.replicate 32 0, [7, 1]⟩ =
        .ok ⟨.zero .blockHash, .unsupported 7 [1]⟩ ∧
      block.SameFields ⟨List.replicate 32 0, [7, 1]⟩ ⟨List.replicate 33 0, [7, 2, 3]⟩ ∧
      block.read Tables.empty.store ⟨List.replicate 33 0, [7, 2, 3]⟩ =
        .ok ⟨.zero .blockHash, .unsupported 7 [2, 3]⟩ := by
  have hunchecked : unchecked ∈ own := by decide
  have hblock : block ∈ own := by decide
  have hsame :
      block.SameFields ⟨List.replicate 32 0, [7, 1]⟩ ⟨List.replicate 33 0, [7, 2, 3]⟩ := ⟨rfl, rfl⟩
  have hread : block.read Tables.empty.store ⟨List.replicate 32 0, [7, 1]⟩ =
      .ok ⟨.zero .blockHash, .unsupported 7 [1]⟩ := rfl
  have hfails : unchecked.Fails ⟨List.replicate 64 0, [7]⟩ (.unsupported 7) :=
    .unknownTag (by decide) (by decide) rfl (by decide)
  refine ⟨hunchecked, ?_, hblock, hread, hsame, ?_⟩
  · exact ((read_by_lengths hunchecked _ _).1 _).2 hfails
  · exact (read_by_lengths hblock _ _).2 _ hread _ _ hsame

end RecordKind

end NanoLedger
