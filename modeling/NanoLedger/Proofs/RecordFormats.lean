import NanoLedger.Proofs.BlockFormat
import NanoLedger.Record.Account
import NanoLedger.Record.Metadata
import NanoLedger.Record.Peer
import NanoLedger.Record.Pending
import NanoLedger.Record.Unchecked
import NanoLedger.Store.KeyMap

/-!
# The formats of the tables beside `blocks`

The entry that holds a record and nothing else is spelled out here for each table, key and value,
field by field and byte by byte, in the manner of `Block.stored` and without the layouts by which
records are read (`AccountInfo.entry`, `PendingInfo.entry` and so on). That the layouts say the same
is shown once for every table. A record is then read exactly from the entries that begin with its
own (`Entry.Begins`), whatever follows in the key or in the value.

Two tables have formats that are no pair of layouts. A value of `unchecked` is told by its tag, as
stored blocks are, and its trailer stands behind the payload of that kind
(`UncheckedInfo.readValue_tag`). An entry of `meta` is a version or is kept as it stands
(`MetaEntry.decode_eq_version`, `MetaEntry.decode_eq_unrecognised`).
-/

namespace NanoLedger

open ByteOrder

/-! ## Records as entries -/

/-- An entry with whose key a key begins and with whose value a value begins. -/
def Entry.Begins (e : Entry) (key value : Bytes) : Prop := e.key <+: key ∧ e.value <+: value

/-- The entry of an account: counters are little-endian, the balance is big-endian. -/
def AccountInfo.entry (a : AccountInfo) : Entry where
  key := a.account.key.bytes
  value := List.flatten
    [a.head.bytes, a.representative.key.bytes, a.openBlock.bytes,
      bigEndian.spell 16 a.balance.toNat, littleEndian.spell 8 a.modified.toNat,
      littleEndian.spell 8 a.blockCount.toNat]

/-- The entry of a confirmation height. -/
def ConfirmationHeight.entry (c : ConfirmationHeight) : Entry where
  key := c.account.key.bytes
  value := List.flatten [littleEndian.spell 8 c.height.toNat, c.frontier.bytes]

/-- The entry of a receivable amount. -/
def PendingInfo.entry (p : PendingInfo) : Entry where
  key := List.flatten [p.account.key.bytes, p.hash.bytes]
  value := List.flatten
    [p.source.key.bytes, bigEndian.spell 16 p.amount.toNat, [p.epoch.toByte]]

/-- The entry of a frontier. -/
def FrontierInfo.entry (f : FrontierInfo) : Entry where
  key := f.hash.bytes
  value := f.account.key.bytes

/-- The entry of a sample of online weight. -/
def OnlineWeight.entry (w : OnlineWeight) : Entry where
  key := bigEndian.spell 8 w.timestamp.toNat
  value := bigEndian.spell 16 w.amount.toNat

/-- The entry of a peer, all of which is in the key. -/
def PeerInfo.entry (p : PeerInfo) : Entry where
  key := List.flatten [p.endpoint.address.bytes, bigEndian.spell 2 p.endpoint.port.toNat]
  value := []

/-- The bytes of a payload behind the tag of its kind. -/
def Payload.stored : Payload → Bytes
  | send p => 2 :: List.flatten
    [p.previous.bytes, p.destination.key.bytes, bigEndian.spell 16 p.balance.toNat,
      p.signature.bytes, littleEndian.spell 8 p.work.word.toNat]
  | receive p => 3 :: List.flatten
    [p.previous.bytes, p.source.bytes, p.signature.bytes, littleEndian.spell 8 p.work.word.toNat]
  | opening p => 4 :: List.flatten
    [p.source.bytes, p.representative.key.bytes, p.account.key.bytes, p.signature.bytes,
      littleEndian.spell 8 p.work.word.toNat]
  | change p => 5 :: List.flatten
    [p.previous.bytes, p.representative.key.bytes, p.signature.bytes,
      littleEndian.spell 8 p.work.word.toNat]
  | state p => 6 :: List.flatten
    [p.account.key.bytes, p.previous.bytes, p.representative.key.bytes,
      bigEndian.spell 16 p.balance.toNat, p.link.bytes, p.signature.bytes,
      bigEndian.spell 8 p.work.word.toNat]
  | unsupported tag contents => tag :: contents

/-- The entry of an unchecked block: tag and payload, then the trailer. -/
def UncheckedInfo.entry (u : UncheckedInfo) : Entry where
  key := List.flatten [u.dependency.bytes, u.hash.bytes]
  value := List.flatten
    [u.block.stored, u.account.key.bytes, littleEndian.spell 8 u.modified.toNat, [u.verified.toByte]]

/-- The entry of a schema version: two numbers of 32 bytes. -/
def MetaEntry.versionEntry (n : UInt64) : Entry where
  key := bigEndian.spell 32 1
  value := bigEndian.spell 32 n.toNat

/-! ## Tables of one layout -/

section

variable {α κ ν : Type} {s : Schema α κ ν} {entry : α → Entry}

/-- A schema under which each record is written as its entry reads it, if it is made of its parts,
exactly from the entries that begin with that one. -/
theorem Schema.decode_eq_ok_iff_begins
    (h : ∀ a, s.writeKey a = (entry a).key ∧ s.writeValue a = (entry a).value) (a : α)
    (key value : Bytes) :
    s.decode key value = .ok a ↔ s.Stored a ∧ (entry a).Begins key value := by
  rw [s.decode_eq_ok, (h a).1, (h a).2, Entry.Begins]

/-- Where every record is made of its parts, each is read from the entries that begin with its own. -/
theorem Schema.decode_eq_ok_of_stored
    (h : ∀ a, s.writeKey a = (entry a).key ∧ s.writeValue a = (entry a).value)
    (hstored : ∀ a, s.Stored a) (a : α) (key value : Bytes) :
    s.decode key value = .ok a ↔ (entry a).Begins key value :=
  (decode_eq_ok_iff_begins h a key value).trans (and_iff_right (hstored a))

end

theorem AccountInfo.decode_eq_ok (a : AccountInfo) (key value : Bytes) :
    decode key value = .ok a ↔ a.entry.Begins key value := by
  refine Schema.decode_eq_ok_of_stored (s := schema) (fun a => ⟨rfl, ?_⟩) (fun _ => rfl) a key value
  simp [Schema.writeValue, schema, entry, encode_eq_spell]

theorem ConfirmationHeight.decode_eq_ok (c : ConfirmationHeight) (key value : Bytes) :
    decode key value = .ok c ↔ c.entry.Begins key value := by
  refine Schema.decode_eq_ok_of_stored (s := schema) (fun c => ⟨rfl, ?_⟩) (fun _ => rfl) c key value
  simp [Schema.writeValue, schema, entry, encode_eq_spell]

/-- An epoch is that of its byte exactly if it is that of some byte. -/
theorem Epoch.ofByte_toByte_iff {e : Epoch} : ofByte e.toByte = e ↔ ∃ b, e = ofByte b := by
  constructor
  · exact fun h => ⟨_, h.symm⟩
  · rintro ⟨b, rfl⟩
    rw [toByte_ofByte]

theorem PendingInfo.stored_iff (p : PendingInfo) : schema.Stored p ↔ ∃ b, p.epoch = .ofByte b := by
  rw [← Epoch.ofByte_toByte_iff, Schema.Stored]
  cases p
  simp [schema]

theorem PendingInfo.decode_eq_ok (p : PendingInfo) (key value : Bytes) :
    decode key value = .ok p ↔ (∃ b, p.epoch = .ofByte b) ∧ p.entry.Begins key value := by
  rw [← stored_iff]
  refine Schema.decode_eq_ok_iff_begins (fun p => ⟨?_, ?_⟩) p key value
  · simp [Schema.writeKey, schema, entry]
  · simp [Schema.writeValue, schema, entry, encode_eq_spell]

theorem FrontierInfo.decode_eq_ok (f : FrontierInfo) (key value : Bytes) :
    decode key value = .ok f ↔ f.entry.Begins key value :=
  Schema.decode_eq_ok_of_stored (s := schema) (fun _ => ⟨rfl, rfl⟩) (fun _ => rfl) f key value

theorem OnlineWeight.decode_eq_ok (w : OnlineWeight) (key value : Bytes) :
    decode key value = .ok w ↔ w.entry.Begins key value := by
  refine Schema.decode_eq_ok_of_stored (s := schema) (fun w => ⟨?_, ?_⟩) (fun _ => rfl) w key value
  · simp [Schema.writeKey, schema, entry, encode_eq_spell]
  · simp [Schema.writeValue, schema, entry, encode_eq_spell]

theorem PeerInfo.decode_eq_ok (p : PeerInfo) (key value : Bytes) :
    decode key value = .ok p ↔ p.entry.Begins key value := by
  refine Schema.decode_eq_ok_of_stored (s := schema) (fun p => ⟨?_, rfl⟩) (fun _ => rfl) p key value
  simp [Schema.writeKey, schema, entry, encode_eq_spell]

/-! ## Unchecked blocks -/

namespace StoredKind

/-- What the payload of a kind holds. -/
def Fields : StoredKind → Type
  | send => SendPayload
  | receive => ReceivePayload
  | opening => OpenPayload
  | change => ChangePayload
  | state => StatePayload

/-- How the payload of a kind is written. -/
def payloadLayout : (k : StoredKind) → Layout k.Fields
  | send => SendPayload.layout
  | receive => ReceivePayload.layout
  | opening => OpenPayload.layout
  | change => ChangePayload.layout
  | state => StatePayload.layout

/-- The payload with the given fields. -/
def payload : (k : StoredKind) → k.Fields → Payload
  | send, p => .send p
  | receive, p => .receive p
  | opening, p => .opening p
  | change, p => .change p
  | state, p => .state p

end StoredKind

namespace Payload

/-- The layouts say what the table says. -/
theorem tag_write_eq_stored (p : Payload) : p.tag :: p.write = p.stored := by
  cases p <;>
    simp [Payload.tag, BlockType.tag, write, stored, SendPayload.layout, ReceivePayload.layout,
      OpenPayload.layout, ChangePayload.layout, StatePayload.layout, encode_eq_spell]

theorem stored_payload (k : StoredKind) (fields : k.Fields) :
    (k.payload fields).stored = k.tag :: k.payloadLayout.write fields := by
  rw [← tag_write_eq_stored]
  cases k <;> rfl

/-- Whether the payload is of a kind that is understood. -/
def Known (p : Payload) : Prop := ∃ (k : StoredKind) (fields : k.Fields), p = k.payload fields

theorem known_iff (p : Payload) : p.Known ↔ ∀ t contents, p ≠ .unsupported t contents := by
  constructor
  · rintro ⟨k, fields, rfl⟩ t contents h
    cases k <;> cases h
  · intro h
    cases p with
    | send p => exact ⟨.send, p, rfl⟩
    | receive p => exact ⟨.receive, p, rfl⟩
    | opening p => exact ⟨.opening, p, rfl⟩
    | change p => exact ⟨.change, p, rfl⟩
    | state p => exact ⟨.state, p, rfl⟩
    | unsupported t contents => exact absurd rfl (h t contents)

theorem read_tag (k : StoredKind) :
    read k.tag = (do return k.payload (← k.payloadLayout.read)) := by
  cases k <;> rfl

theorem read_unknown {t : UInt8} (h : ∀ k : StoredKind, t ≠ k.tag) :
    read t = (do return .unsupported t (← Read.remaining)) := by
  rw [read]
  rcases StoredKind.ofTag?_of_unknown h with htype | htype | htype <;> rw [htype]

end Payload

namespace UncheckedInfo

/-- Behind the tag of a kind stand the payload of that kind and the trailer. -/
theorem readValue_tag (k : StoredKind) (rest : Bytes) :
    readValue.eval (k.tag :: rest) =
      ((k.payloadLayout.pair trailer).parse rest).map fun x => (k.payload x.1, x.2) := by
  rw [← Block.run_read_read _ _ (fun p t => (k.payload p, t)) 1 rest, Read.eval, Cursor.start,
    readValue, Read.run_bind, Read.run_byte_cons]
  dsimp only
  rw [Payload.read_tag, Read.run_bind, Read.run_bind, Read.run_bind]
  obtain ⟨result, c⟩ := k.payloadLayout.read.run ⟨1, rest⟩
  cases result with
  | error e => rfl
  | ok p => cases k <;> rfl

/-- Other tags are refused, whatever stands behind them. -/
theorem readValue_unknown {t : UInt8} (h : ∀ k : StoredKind, t ≠ k.tag) (rest : Bytes) :
    readValue.eval (t :: rest) = .error (.unsupported t) := by
  rw [Read.eval, Cursor.start, readValue, Read.run_bind, Read.run_byte_cons]
  dsimp only
  rw [Payload.read_unknown h]
  rfl

theorem readValue_nil : readValue.eval [] = .error .truncated := rfl

/-- A value is read exactly if it begins with tag, payload and trailer. -/
theorem readValue_eq_ok {value : Bytes} {block : Payload} {t : Account × UInt64 × UInt8} :
    readValue.eval value = .ok (block, t) ↔
      block.Known ∧ block.stored ++ trailer.write t <+: value := by
  constructor
  · intro h
    obtain rfl | ⟨k, rest, rfl⟩ | ⟨tag, rest, rfl, htag⟩ := Block.value_cases value
    · cases h
    · rw [readValue_tag] at h
      cases hparse : (k.payloadLayout.pair trailer).parse rest with
      | error e =>
        rw [hparse] at h
        cases h
      | ok x =>
        rw [hparse] at h
        cases h
        refine ⟨⟨k, x.1, rfl⟩, ?_⟩
        rw [Payload.stored_payload, List.cons_append]
        exact List.cons_prefix_cons.2 ⟨rfl, (Layout.parse_eq_ok _).1 hparse⟩
    · rw [readValue_unknown htag] at h
      cases h
  · rintro ⟨⟨k, fields, rfl⟩, hprefix⟩
    rw [Payload.stored_payload, List.cons_append] at hprefix
    obtain ⟨rest, rfl⟩ := hprefix
    have hparse : (k.payloadLayout.pair trailer).parse
        (k.payloadLayout.write fields ++ trailer.write t ++ rest) = .ok (fields, t) :=
      (Layout.parse_eq_ok _).2 (List.prefix_append _ rest)
    rw [List.cons_append, readValue_tag, hparse]
    rfl

theorem writeKey_eq (u : UncheckedInfo) : u.writeKey = u.entry.key := by
  simp [writeKey, keyLayout, entry]

theorem writeValue_eq_append (u : UncheckedInfo) :
    u.writeValue = u.block.stored ++ trailer.write (u.account, u.modified, u.verified.toByte) := by
  rw [writeValue, ← List.cons_append, Payload.tag_write_eq_stored]

theorem writeValue_eq (u : UncheckedInfo) : u.writeValue = u.entry.value := by
  rw [writeValue_eq_append]
  simp [trailer, entry, encode_eq_spell]

theorem decode_eq_ok (u : UncheckedInfo) (key value : Bytes) :
    decode key value = .ok u ↔
      (∃ b, u.verified = .ofByte b) ∧ u.block.Known ∧ u.entry.Begins key value := by
  rw [Entry.Begins, ← writeKey_eq, ← writeValue_eq, writeValue_eq_append,
    and_left_comm (b := u.writeKey <+: key), ← readValue_eq_ok, writeKey, ← Layout.parse_eq_ok,
    decode]
  cases keyLayout.parse key with
  | error e => exact ⟨nofun, nofun⟩
  | ok x =>
    cases readValue.eval value with
    | error e => exact ⟨nofun, nofun⟩
    | ok y =>
      constructor
      · rintro ⟨⟩
        refine ⟨⟨_, rfl⟩, rfl, ?_⟩
        rw [Verification.toByte_ofByte]
      · obtain ⟨dependency, hash, block, account, modified, verified⟩ := u
        rintro ⟨⟨b, rfl⟩, ⟨⟩, hvalue⟩
        rw [Verification.toByte_ofByte] at hvalue
        cases hvalue
        rfl

end UncheckedInfo

/-! ## Metadata -/

namespace MetaEntry

/-- A number of 32 bytes is a word exactly if the word, spelled out, is these bytes. -/
theorem word?_eq_some {o : Octets 32} {n : UInt64} :
    word? o = some n ↔ o.bytes = bigEndian.spell 32 n.toNat := by
  rw [← encode_eq_spell, word?]
  constructor
  · intro h
    split at h
    · next hlt =>
      cases h
      have hbytes := bigEndian.encode_decode o.bytes
      rw [o.length_eq] at hbytes
      rw [UInt64.toNat_ofNat', Nat.mod_eq_of_lt hlt, hbytes]
    · cases h
  · intro h
    have hdecode : bigEndian.decode o.bytes = n.toNat := by
      rw [h]
      exact bigEndian.decode_encode (Nat.lt_trans n.toNat_lt (by decide +kernel))
    simp only [hdecode]
    rw [if_pos n.toNat_lt, UInt64.ofNat_toNat]

/-- A number of 32 bytes is a word exactly if the first 24 of them are zero, and then it is that of
the other eight. -/
theorem word?_eq_ite (o : Octets 32) : word? o =
    if (o.bytes.take 24).all (· = 0) then some (UInt64.ofNat (bigEndian.decode (o.bytes.drop 24)))
    else none := by
  have hlow : bigEndian.decode (o.bytes.drop 24) < UInt64.size := by
    have h := bigEndian.decode_lt (o.bytes.drop 24)
    rwa [List.length_drop, o.length_eq] at h
  have hsum : bigEndian.decode o.bytes =
      bigEndian.decode (o.bytes.take 24) * UInt64.size + bigEndian.decode (o.bytes.drop 24) := by
    have h := Radix.ofBytes_append (o.bytes.take 24) (o.bytes.drop 24)
    rwa [List.take_append_drop, List.length_drop, o.length_eq] at h
  have hall : (o.bytes.take 24).all (· = 0) = true ↔ bigEndian.decode (o.bytes.take 24) = 0 := by
    rw [List.all_eq_true]
    exact (forall₂_congr fun _ _ => decide_eq_true_iff).trans Radix.ofBytes_eq_zero_iff.symm
  rw [word?, hsum]
  by_cases hzero : (o.bytes.take 24).all (· = 0) = true
  · have hhigh : bigEndian.decode (o.bytes.take 24) = 0 := hall.1 hzero
    rw [if_pos hzero, hhigh, Nat.zero_mul, Nat.zero_add]
    exact if_pos hlow
  · have hhigh : 0 < bigEndian.decode (o.bytes.take 24) := Nat.pos_of_ne_zero (mt hall.2 hzero)
    rw [if_neg hzero]
    refine if_neg (Nat.not_lt.2 (Nat.le_add_right_of_le ?_))
    exact Nat.le_mul_of_pos_left _ hhigh

/-- What an entry of `meta` is read as. -/
inductive Reads (key value : Bytes) : Except LedgerError MetaEntry → Prop
  | shortKey : key.length < 32 → Reads key value (.error .truncated)
  | otherKey : 32 ≤ key.length → ¬ bigEndian.spell 32 1 <+: key →
      Reads key value (.ok (.unrecognised (Hex.encode key) (Hex.encode value)))
  | shortVersion : bigEndian.spell 32 1 <+: key → value.length < 32 →
      Reads key value (.error .truncated)
  | version {n : UInt64} : (versionEntry n).Begins key value → Reads key value (.ok (.version n))
  | longVersion : bigEndian.spell 32 1 <+: key → 32 ≤ value.length →
      (∀ n : UInt64, ¬ (versionEntry n).Begins key value) →
      Reads key value (.ok (.unrecognised (Hex.encode key) (Hex.encode value)))

/-- A number of 32 bytes is read from what begins with it. -/
theorem parse_eq_ok_word {bytes : Bytes} {n : UInt64} (h : bigEndian.spell 32 n.toNat <+: bytes) :
    ∃ o, (Layout.octets 32).parse bytes = .ok o ∧ word? o = some n := by
  let o : Octets 32 := ⟨bigEndian.spell 32 n.toNat, bigEndian.length_spell 32 n.toNat⟩
  exact ⟨o, (Layout.octets 32).parse_eq_ok.2 h, word?_eq_some.2 rfl⟩

theorem reads_decode (key value : Bytes) : Reads key value (decode key value) := by
  rw [decode]
  cases hkey : (Layout.octets 32).parse key with
  | error e =>
    obtain ⟨hlt, rfl⟩ := ((Layout.octets 32).parse_eq_error key e).1 hkey
    exact .shortKey hlt
  | ok k =>
    have hk : k.bytes <+: key := (Layout.octets 32).parse_eq_ok.1 hkey
    simp only [bind, Except.bind]
    by_cases hword : word? k = some versionKey
    · have hone : bigEndian.spell 32 1 <+: key := word?_eq_some.1 hword ▸ hk
      rw [if_pos hword]
      cases hvalue : (Layout.octets 32).parse value with
      | error e =>
        obtain ⟨hlt, rfl⟩ := ((Layout.octets 32).parse_eq_error value e).1 hvalue
        exact .shortVersion hone hlt
      | ok v =>
        have hv : v.bytes <+: value := (Layout.octets 32).parse_eq_ok.1 hvalue
        dsimp only
        cases hn : word? v with
        | some n =>
          have hnumber : bigEndian.spell 32 n.toNat <+: value := word?_eq_some.1 hn ▸ hv
          exact .version ⟨hone, hnumber⟩
        | none =>
          refine .longVersion hone ((Layout.octets 32).size_le_of_parse hvalue) fun n hbegins => ?_
          obtain ⟨o, ho, hwordo⟩ := parse_eq_ok_word hbegins.2
          cases hvalue.symm.trans ho
          rw [hn] at hwordo
          cases hwordo
    · rw [if_neg hword]
      refine .otherKey ((Layout.octets 32).size_le_of_parse hkey) fun hone => hword ?_
      obtain ⟨o, ho, hwordo⟩ := parse_eq_ok_word (n := 1) hone
      cases hkey.symm.trans ho
      exact hwordo

theorem decode_eq_version {key value : Bytes} {n : UInt64} :
    decode key value = .ok (.version n) ↔ (versionEntry n).Begins key value := by
  constructor
  · intro h
    have hreads := reads_decode key value
    rw [h] at hreads
    cases hreads with
    | version hbegins => exact hbegins
  · rintro ⟨hone, hn⟩
    obtain ⟨k, hkey, hk⟩ := parse_eq_ok_word (n := versionKey) hone
    obtain ⟨v, hvalue, hv⟩ := parse_eq_ok_word hn
    rw [decode, hkey, hvalue]
    simp only [bind, Except.bind, hk, hv, if_true]
    rfl

/-- An entry that is no version is kept as it stands, in digits, unless bytes are missing. -/
theorem decode_eq_unrecognised {key value : Bytes} (hkey : 32 ≤ key.length)
    (hvalue : bigEndian.spell 32 1 <+: key → 32 ≤ value.length)
    (hnone : ∀ n : UInt64, ¬ (versionEntry n).Begins key value) :
    decode key value = .ok (.unrecognised (Hex.encode key) (Hex.encode value)) := by
  have hreads := reads_decode key value
  generalize decode key value = result at hreads ⊢
  cases hreads with
  | shortKey hlt => omega
  | shortVersion hone hlt => exact absurd (hvalue hone) (Nat.not_le.2 hlt)
  | version hbegins => exact absurd hbegins (hnone _)
  | otherKey => rfl
  | longVersion => rfl

end MetaEntry

/-! ## All of them -/

/-- The formats of the tables beside `blocks`. A record is read exactly from the entries that begin
with its own, whatever follows in key or value. Its epoch or verification has to be that of some
byte, and the payload of an unchecked block of a known kind. The bytes of epoch and verification are
all told apart, in the JSON too. An entry of `meta` of full length is the version that it spells
out, or else is kept as it stands, in hexadecimal digits. -/
theorem formats_exact :
    (∀ (a : AccountInfo) (key value : Bytes),
      AccountInfo.decode key value = .ok a ↔ a.entry.Begins key value) ∧
    (∀ (c : ConfirmationHeight) (key value : Bytes),
      ConfirmationHeight.decode key value = .ok c ↔ c.entry.Begins key value) ∧
    (∀ (p : PendingInfo) (key value : Bytes),
      PendingInfo.decode key value = .ok p ↔
        (∃ b, p.epoch = .ofByte b) ∧ p.entry.Begins key value) ∧
    (∀ (f : FrontierInfo) (key value : Bytes),
      FrontierInfo.decode key value = .ok f ↔ f.entry.Begins key value) ∧
    (∀ (w : OnlineWeight) (key value : Bytes),
      OnlineWeight.decode key value = .ok w ↔ w.entry.Begins key value) ∧
    (∀ (p : PeerInfo) (key value : Bytes),
      PeerInfo.decode key value = .ok p ↔ p.entry.Begins key value) ∧
    (∀ (u : UncheckedInfo) (key value : Bytes),
      UncheckedInfo.decode key value = .ok u ↔
        (∃ b, u.verified = .ofByte b) ∧ (∀ t contents, u.block ≠ .unsupported t contents) ∧
          u.entry.Begins key value) ∧
    (∀ b c, Epoch.ofByte b = .ofByte c ↔ b = c) ∧
    (∀ e f : Epoch, e.json = f.json ↔ e = f) ∧
    (∀ b c, Verification.ofByte b = .ofByte c ↔ b = c) ∧
    (∀ v w : Verification, v.json = w.json ↔ v = w) ∧
    ∀ key value : Bytes, 32 ≤ key.length → 32 ≤ value.length →
      (∀ n : UInt64, MetaEntry.decode key value = .ok (.version n) ↔
        (MetaEntry.versionEntry n).Begins key value) ∧
      ((∀ n : UInt64, ¬ (MetaEntry.versionEntry n).Begins key value) →
        ∃ m, MetaEntry.decode key value = .ok m ∧
          m = .unrecognised (Hex.encode key) (Hex.encode value) ∧
          m.json = .object [("key", .text "unrecognised"), ("raw_key", .text (Hex.encode key)),
            ("raw_value", .text (Hex.encode value))]) := by
  refine ⟨AccountInfo.decode_eq_ok, ConfirmationHeight.decode_eq_ok, PendingInfo.decode_eq_ok,
    FrontierInfo.decode_eq_ok, OnlineWeight.decode_eq_ok, PeerInfo.decode_eq_ok, ?_,
    fun _ _ => Epoch.ofByte_inj, fun _ _ => Epoch.json_inj, fun _ _ => Verification.ofByte_inj,
    fun _ _ => Verification.json_inj, ?_⟩
  · intro u key value
    rw [UncheckedInfo.decode_eq_ok, Payload.known_iff]
  · intro key value hkey hvalue
    refine ⟨fun n => MetaEntry.decode_eq_version, fun hnone => ?_⟩
    exact ⟨_, MetaEntry.decode_eq_unrecognised hkey (fun _ => hvalue) hnone, rfl, rfl⟩

/-- An amount for the account of zeros, of an epoch without a name. -/
def PendingInfo.ofEpoch200 : PendingInfo where
  account := ⟨.zero 32⟩
  hash := .zero .blockHash
  source := ⟨.zero 32⟩
  amount := ⟨⟨258, by decide⟩⟩
  epoch := .unknown 200

/-- An amount with bytes behind its key and its value, the version 19, and the first
number that is no word in the place of a version. -/
theorem formats_exact_ofEpoch200 :
    PendingInfo.decode (PendingInfo.ofEpoch200.entry.key ++ [7])
        (PendingInfo.ofEpoch200.entry.value ++ [8, 9]) = .ok .ofEpoch200 ∧
      MetaEntry.decode (bigEndian.spell 32 1) (bigEndian.spell 32 19 ++ [0]) = .ok (.version 19) ∧
      (∀ n : UInt64, ¬ (MetaEntry.versionEntry n).Begins (bigEndian.spell 32 1)
        (bigEndian.spell 32 UInt64.size)) ∧
      MetaEntry.decode (bigEndian.spell 32 1) (bigEndian.spell 32 UInt64.size) =
        .ok (.unrecognised (Hex.encode (bigEndian.spell 32 1))
          (Hex.encode (bigEndian.spell 32 UInt64.size))) := by
  obtain ⟨-, -, hpending, -, -, -, -, -, -, -, -, hmeta⟩ := formats_exact
  have hnone : ∀ n : UInt64, ¬ (MetaEntry.versionEntry n).Begins (bigEndian.spell 32 1)
      (bigEndian.spell 32 UInt64.size) := by
    rintro n ⟨-, hprefix⟩
    obtain ⟨o, ho, hword⟩ := MetaEntry.parse_eq_ok_word hprefix
    cases ho
    cases hword
  refine ⟨?_, ?_, hnone, ?_⟩
  · exact (hpending _ _ _).2 ⟨⟨200, rfl⟩, List.prefix_append _ _, List.prefix_append _ _⟩
  · exact ((hmeta _ _ (by decide) (by decide)).1 19).2 ⟨List.prefix_rfl, List.prefix_append _ _⟩
  · obtain ⟨m, hm, rfl, -⟩ := (hmeta _ _ (by decide) (by decide)).2 hnone
    exact hm

end NanoLedger
