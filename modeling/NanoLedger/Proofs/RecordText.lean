import NanoLedger.Proofs.Addresses
import NanoLedger.Proofs.Draining
import NanoLedger.Proofs.JsonText

/-!
# The lines of exported records

Each exported record is shown as one JSON object (`ExportKind.exists_json_eq_object`). No JSON text
has an end of line inside, so the record stands on a line of its own, and the lines of a text are
found again by splitting it at the ends of lines (`JsonLines.splitOn_text`). Every field of a record
can be told from how it is shown: numbers in decimal, byte strings in hexadecimal, accounts by their
addresses, and the kinds by their names. So records that are shown alike are the same
(`ExportKind.json_inj`), and a list of records can be told from its lines. Peers are left out of
that.
-/

namespace NanoLedger

/-! ## Texts of fields -/

namespace Hex

theorem digit_inj : ∀ m n : Fin 16, digit m = digit n → m = n := by decide +kernel

theorem visible_digit : ∀ n : Fin 16, 32 < (digit n).toNat ∧ (digit n).toNat < 127 := by decide

/-- The high and the low half of a byte. -/
theorem exists_digits (b : UInt8) : ∃ hi lo : Fin 16, b.toNat = 16 * hi + lo ∧
    pair b = [digit hi, digit lo] := by
  have hlt : b.toNat < 256 := b.toNat_lt
  exact ⟨⟨b.toNat / 16, by omega⟩, ⟨b.toNat % 16, by omega⟩, (Nat.div_add_mod ..).symm, rfl⟩

theorem pair_append_inj {b c : UInt8} {rest rest' : List Char}
    (h : pair b ++ rest = pair c ++ rest') : b = c ∧ rest = rest' := by
  obtain ⟨hi, lo, hb, hpair⟩ := exists_digits b
  obtain ⟨hi', lo', hc, hpair'⟩ := exists_digits c
  rw [hpair, hpair'] at h
  simp only [List.cons_append, List.nil_append, List.cons.injEq] at h
  obtain ⟨hhi, hlo, hrest⟩ := h
  obtain rfl := digit_inj _ _ hhi
  obtain rfl := digit_inj _ _ hlo
  exact ⟨UInt8.toNat_inj.1 (hb.trans hc.symm), hrest⟩

theorem encode_inj {bs cs : Bytes} : encode bs = encode cs ↔ bs = cs := by
  constructor
  · intro h
    replace h := String.ofList_inj.1 h
    induction bs generalizing cs with
    | nil =>
      cases cs with
      | nil => rfl
      | cons c cs => cases h
    | cons b bs ih =>
      cases cs with
      | nil => cases h
      | cons c cs =>
        obtain ⟨rfl, hrest⟩ := pair_append_inj h
        rw [ih hrest]
  · rintro rfl
    rfl

theorem visible_encode (bs : Bytes) : Json.Visible (encode bs).toList := by
  intro c hc
  rw [encode, String.toList_ofList] at hc
  obtain ⟨b, -, hc⟩ := List.mem_flatMap.1 hc
  obtain ⟨hi, lo, -, hpair⟩ := exists_digits b
  rw [hpair] at hc
  rcases List.mem_cons.1 hc with rfl | hc
  · exact visible_digit hi
  · cases List.mem_singleton.1 hc
    exact visible_digit lo

end Hex

@[simp] theorem Identifier.text_inj {role : Role} {x y : Identifier role} :
    x.text = y.text ↔ x = y := by
  cases x
  cases y
  rw [text, text, Hex.encode_inj, mk.injEq]
  exact ⟨Octets.ext_bytes, congrArg Octets.bytes⟩

@[simp] theorem Work.text_inj {w w' : Work} : w.text = w'.text ↔ w = w' := by
  cases w with | mk m => ?_
  cases w' with | mk n => ?_
  rw [text, text, Hex.encode_inj, mk.injEq]
  constructor
  · intro h
    have hvalue := congrArg ByteOrder.bigEndian.decode h
    rw [ByteOrder.decode_encode _ m.toNat_lt, ByteOrder.decode_encode _ n.toNat_lt] at hvalue
    exact UInt64.toNat_inj.1 hvalue
  · rintro rfl
    rfl

@[simp] theorem Balance.text_inj {a b : Balance} : a.text = b.text ↔ a = b := by
  constructor
  · intro h
    exact Balance.toNat_inj (Json.toString_inj h)
  · rintro rfl
    rfl

@[simp] theorem Account.address_inj {a b : Account} : a.address = b.address ↔ a = b := by
  constructor
  · intro h
    have ha : Account.ofAddress a.address = .ok a := Account.ofAddressBy_eq_ok.2 (.inl rfl)
    have hb : Account.ofAddress b.address = .ok b := Account.ofAddressBy_eq_ok.2 (.inl rfl)
    rw [h] at ha
    exact Except.ok.inj (ha.symm.trans hb)
  · rintro rfl
    rfl

@[simp] theorem BlockType.name_inj {t u : BlockType} : t.name = u.name ↔ t = u := by
  cases t <;> cases u <;> decide

@[simp] theorem Subtype.name_inj {t u : Subtype} : t.name = u.name ↔ t = u := by
  cases t <;> cases u <;> decide

namespace Json

/-- Optional values that are shown alike are the same, if present ones are and none is null. -/
@[simp] theorem optional_inj {α : Type} {f : α → Json} (hf : ∀ a b, f a = f b → a = b)
    (hnull : ∀ a, f a ≠ null) {x y : Option α} : optional f x = optional f y ↔ x = y := by
  constructor
  · intro h
    cases x with
    | none =>
      cases y with
      | none => rfl
      | some b => exact absurd h.symm (hnull b)
    | some a =>
      cases y with
      | none => exact absurd h (hnull a)
      | some b => rw [hf a b h]
  · rintro rfl
    rfl

end Json

/-! ## Records -/

theorem AccountInfo.json_inj {a b : AccountInfo} : a.json = b.json ↔ a = b := by
  cases a
  cases b
  simp [json, UInt64.toNat_inj]

theorem ConfirmationHeight.json_inj {a b : ConfirmationHeight} : a.json = b.json ↔ a = b := by
  cases a
  cases b
  simp [json, UInt64.toNat_inj]

theorem PendingInfo.json_inj {a b : PendingInfo} : a.json = b.json ↔ a = b := by
  cases a
  cases b
  simp [json, Epoch.json_inj]

theorem FrontierInfo.json_inj {a b : FrontierInfo} : a.json = b.json ↔ a = b := by
  cases a
  cases b
  simp [json]

theorem OnlineWeight.json_inj {a b : OnlineWeight} : a.json = b.json ↔ a = b := by
  cases a
  cases b
  simp [json, UInt64.toNat_inj]

theorem MetaEntry.json_inj {a b : MetaEntry} : a.json = b.json ↔ a = b := by
  cases a <;> cases b <;> simp [json, UInt64.toNat_inj]

theorem NormalizedAccount.json_inj {a b : NormalizedAccount} : a.json = b.json ↔ a = b := by
  cases a
  cases b
  simp [json, UInt64.toNat_inj]

theorem NormalizedBlock.json_inj {a b : NormalizedBlock} : a.json = b.json ↔ a = b := by
  cases a
  cases b
  simp [json, UInt64.toNat_inj, BlockType.json]

theorem SendPayload.fields_inj {p q : SendPayload} : p.fields = q.fields ↔ p = q := by
  cases p
  cases q
  simp [fields]

theorem ReceivePayload.fields_inj {p q : ReceivePayload} : p.fields = q.fields ↔ p = q := by
  cases p
  cases q
  simp [fields]

theorem OpenPayload.fields_inj {p q : OpenPayload} : p.fields = q.fields ↔ p = q := by
  cases p
  cases q
  simp [fields]

theorem ChangePayload.fields_inj {p q : ChangePayload} : p.fields = q.fields ↔ p = q := by
  cases p
  cases q
  simp [fields]

theorem StatePayload.fields_inj {p q : StatePayload} : p.fields = q.fields ↔ p = q := by
  cases p
  cases q
  simp [fields]

/-- A list of bytes is told from the list of their numbers. -/
theorem map_number_inj {bs cs : Bytes} :
    bs.map (fun b => Json.number b.toNat) = cs.map (fun b => Json.number b.toNat) ↔ bs = cs :=
  List.map_inj_right fun _ _ h => UInt8.toNat_inj.1 (Json.number.inj h)

/-- Payloads of different kinds differ in the name of their kind, those of one kind in a field. -/
theorem Payload.json_inj {p q : Payload} : p.json = q.json ↔ p = q := by
  cases p <;> cases q <;>
    simp [json, BlockType.json, BlockType.name, SendPayload.fields_inj, ReceivePayload.fields_inj,
      OpenPayload.fields_inj, ChangePayload.fields_inj, StatePayload.fields_inj, map_number_inj,
      UInt8.toNat_inj]

theorem UncheckedInfo.json_inj {a b : UncheckedInfo} : a.json = b.json ↔ a = b := by
  cases a
  cases b
  simp [json, UInt64.toNat_inj, Payload.json_inj, Verification.json_inj]

/-! ## Visible texts -/

@[simp] theorem Identifier.visible_text {role : Role} (x : Identifier role) :
    Json.Visible x.text.toList := Hex.visible_encode _

@[simp] theorem Work.visible_text (w : Work) : Json.Visible w.text.toList := Hex.visible_encode _

@[simp] theorem Balance.visible_text (b : Balance) : Json.Visible b.text.toList :=
  Json.visible_number _

theorem Symbols.visible_alphabet : Json.Visible alphabet.toList := by decide

theorem Symbols.visible_encode (padding : Nat) (bytes : Bytes) :
    Json.Visible (encode padding bytes) := by
  intro c hc
  obtain ⟨g, -, rfl⟩ := List.mem_map.1 hc
  exact visible_alphabet _ (Vector.mem_toList_iff.2 (Vector.getElem_mem _))

@[simp] theorem Account.visible_address (a : Account) : Json.Visible a.address.toList := by
  rw [address, toList_addressBy, symbolsBy]
  simp only [Json.visible_append]
  exact ⟨by decide, Symbols.visible_encode _ _, Symbols.visible_encode _ _⟩

@[simp] theorem BlockType.visible_name : ∀ t : BlockType, Json.Visible t.name.toList := by
  intro t
  cases t <;> decide

@[simp] theorem Subtype.visible_name : ∀ t : Subtype, Json.Visible t.name.toList := by
  intro t
  cases t <;> decide

namespace Json

@[simp] theorem plain_optional {α : Type} {f : α → Json} (hf : ∀ a, (f a).Plain) (x : Option α) :
    (optional f x).Plain := by
  cases x with
  | none => exact plain_null
  | some a => exact hf a

end Json

theorem AccountInfo.plain_json (a : AccountInfo) : a.json.Plain := by simp +decide [json]

theorem ConfirmationHeight.plain_json (c : ConfirmationHeight) : c.json.Plain := by
  simp +decide [json]

theorem Epoch.plain_json (e : Epoch) : e.json.Plain := by cases e <;> simp +decide [json]

theorem PendingInfo.plain_json (p : PendingInfo) : p.json.Plain := by
  simp +decide [json, Epoch.plain_json]

theorem FrontierInfo.plain_json (f : FrontierInfo) : f.json.Plain := by simp +decide [json]

theorem OnlineWeight.plain_json (w : OnlineWeight) : w.json.Plain := by simp +decide [json]

theorem NormalizedAccount.plain_json (a : NormalizedAccount) : a.json.Plain := by
  simp +decide [json]

theorem NormalizedBlock.plain_json (b : NormalizedBlock) : b.json.Plain := by
  simp +decide [json, BlockType.json]

theorem Verification.plain_json (v : Verification) : v.json.Plain := by
  cases v <;> simp +decide [json]

theorem Payload.plain_json (p : Payload) : p.json.Plain := by
  cases p with
  | send p => simp +decide [json, BlockType.json, SendPayload.fields]
  | receive p => simp +decide [json, BlockType.json, ReceivePayload.fields]
  | opening p => simp +decide [json, BlockType.json, OpenPayload.fields]
  | change p => simp +decide [json, BlockType.json, ChangePayload.fields]
  | state p => simp +decide [json, BlockType.json, StatePayload.fields]
  | unsupported tag contents =>
    have hbytes : (Json.list (contents.map fun b => .number b.toNat)).Plain := by
      refine Json.plain_list.2 fun x hx => ?_
      obtain ⟨b, -, rfl⟩ := List.mem_map.1 hx
      exact Json.plain_number _
    simp +decide [json, hbytes]

theorem UncheckedInfo.plain_json (u : UncheckedInfo) : u.json.Plain := by
  simp +decide [json, Payload.plain_json, Verification.plain_json]

/-! ## Peers -/

/-- Every character of texts that are put together with a separator is one of the separator or of
a text. -/
theorem Text.forall_mem_intercalate {p : Char → Prop} {sep : String} (hsep : ∀ c ∈ sep.toList, p c)
    {texts : List String} (h : ∀ s ∈ texts, ∀ c ∈ s.toList, p c) :
    ∀ c ∈ (sep.intercalate texts).toList, p c := by
  induction texts with
  | nil => exact nofun
  | cons s texts ih =>
    obtain ⟨hs, htexts⟩ := List.forall_mem_cons.1 h
    cases texts with
    | nil => simpa using hs
    | cons t texts =>
      rw [String.intercalate_cons_cons, String.toList_append, String.toList_append]
      simp only [List.forall_mem_append]
      exact ⟨⟨hs, hsep⟩, ih htexts⟩

theorem Json.visible_intercalate {sep : String} (hsep : Visible sep.toList) {texts : List String}
    (h : ∀ s ∈ texts, Visible s.toList) : Visible (sep.intercalate texts).toList :=
  Text.forall_mem_intercalate hsep h

theorem Hex.visible_digitChar :
    ∀ n : Fin 16, 32 < (Nat.digitChar n).toNat ∧ (Nat.digitChar n).toNat < 127 := by decide

theorem Hex.visible_lowerDigits (n : Nat) : Json.Visible (lowerDigits n).toList := by
  rw [lowerDigits, String.toList_ofList]
  induction n using Nat.strongRecOn with
  | ind n ih =>
    rw [Nat.toDigits_eq_if (by decide)]
    split
    · next hlt => simpa using ⟨visible_digitChar ⟨n, hlt⟩, nofun⟩
    · next hlt =>
      rw [Json.visible_append]
      refine ⟨ih _ (by omega), ?_⟩
      simpa using ⟨visible_digitChar ⟨n % 16, Nat.mod_lt _ (by decide)⟩, nofun⟩

namespace Endpoint

theorem visible_dotted (bytes : Bytes) : Json.Visible (dotted bytes).toList := by
  refine Json.visible_intercalate (by decide) fun s hs => ?_
  obtain ⟨b, -, rfl⟩ := List.mem_map.1 hs
  exact Json.visible_number _

theorem visible_colonText (groups : List Nat) : Json.Visible (colonText groups).toList := by
  refine Json.visible_intercalate (by decide) fun s hs => ?_
  obtain ⟨n, -, rfl⟩ := List.mem_map.1 hs
  exact Hex.visible_lowerDigits n

theorem visible_compressed (groups : List Nat) : Json.Visible (compressed groups).toList := by
  rw [compressed]
  split
  · exact visible_colonText _
  · simp only [String.toList_append, Json.visible_append]
    exact ⟨⟨visible_colonText _, by decide⟩, visible_colonText _⟩

theorem visible_addressText (e : Endpoint) : Json.Visible e.addressText.toList := by
  rw [addressText]
  split
  · rw [String.toList_append, Json.visible_append]
    exact ⟨by decide, visible_dotted _⟩
  · exact visible_compressed _

end Endpoint

theorem PeerInfo.visible_address (p : PeerInfo) : Json.Visible p.address.toList := by
  rw [address]
  split
  · simp only [String.toList_append, Json.visible_append]
    exact ⟨⟨Endpoint.visible_dotted _, by decide⟩, Json.visible_number _⟩
  · simp only [Endpoint.text, String.toList_append, Json.visible_append]
    exact ⟨⟨⟨by decide, p.endpoint.visible_addressText⟩, by decide⟩, Json.visible_number _⟩

theorem PeerInfo.plain_json (p : PeerInfo) : p.json.Plain := by
  simp +decide [json, fields, visible_address]

/-! ## Lines -/

namespace ExportKind

/-- Every record is shown by an object. -/
theorem exists_json_eq_object (kind : ExportKind) (r : kind.kind.Record) :
    ∃ fields, kind.json r = .object fields := by
  cases kind with
  | metadata => cases r <;> exact ⟨_, rfl⟩
  | block | account | accountInfo | confirmationHeight | pending | frontier | onlineWeight | peer
  | unchecked => exact ⟨_, rfl⟩

/-- Only metadata may hold strings of other characters. -/
theorem plain_json {kind : ExportKind} (h : kind ≠ .metadata) (r : kind.kind.Record) :
    (kind.json r).Plain := by
  cases kind with
  | block => exact NormalizedBlock.plain_json r
  | account => exact NormalizedAccount.plain_json r
  | accountInfo => exact AccountInfo.plain_json r
  | confirmationHeight => exact ConfirmationHeight.plain_json r
  | pending => exact PendingInfo.plain_json r
  | frontier => exact FrontierInfo.plain_json r
  | onlineWeight => exact OnlineWeight.plain_json r
  | peer => exact PeerInfo.plain_json r
  | metadata => exact absurd rfl h
  | unchecked => exact UncheckedInfo.plain_json r

/-- Records that are shown alike are the same, peers left out. -/
theorem json_inj {kind : ExportKind} (h : kind ≠ .peer) {r r' : kind.kind.Record} :
    kind.json r = kind.json r' ↔ r = r' := by
  cases kind with
  | block => exact NormalizedBlock.json_inj
  | account => exact NormalizedAccount.json_inj
  | accountInfo => exact AccountInfo.json_inj
  | confirmationHeight => exact ConfirmationHeight.json_inj
  | pending => exact PendingInfo.json_inj
  | frontier => exact FrontierInfo.json_inj
  | onlineWeight => exact OnlineWeight.json_inj
  | peer => exact absurd rfl h
  | metadata => exact MetaEntry.json_inj
  | unchecked => exact UncheckedInfo.json_inj

end ExportKind

namespace JsonLines

variable {α : Type}

theorem toList_text_cons (json : α → Json) (r : α) (rs : List α) :
    (text json (r :: rs)).toList = (json r).chars ++ '\n' :: (text json rs).toList := by
  simp [text_cons, Json.render]

/-- The lines of a text are the records that were written, and behind the end of the last one
nothing follows. -/
theorem splitOn_text (json : α → Json) (rs : List α) :
    (text json rs).toList.splitOn '\n' = rs.map (fun r => (json r).chars) ++ [[]] := by
  induction rs with
  | nil => rfl
  | cons r rs ih =>
    have hchars : ∀ c ∈ (json r).chars, (c == '\n') = false := by
      intro c hc
      exact beq_false_of_ne fun heq => (json r).newline_not_mem_chars (heq ▸ hc)
    rw [toList_text_cons, List.splitOn,
      List.splitOnP_append_cons_of_forall_mem hchars _ (beq_self_eq_true _)]
    exact congrArg ((json r).chars :: ·) ih

/-- Lines that are the same were written for records that are shown alike. -/
theorem map_eq_of_text_eq {json : α → Json} {rs rs' : List α} (h : text json rs = text json rs') :
    rs.map json = rs'.map json := by
  have hlines := splitOn_text json rs
  rw [h, splitOn_text] at hlines
  have hchars := List.append_cancel_right hlines
  have hmap (rs : List α) : rs.map (fun r => (json r).chars) = (rs.map json).map Json.chars := by
    simp
  rw [hmap, hmap] at hchars
  exact ((List.map_inj_right fun _ _ => Json.chars_inj.1).1 hchars).symm

end JsonLines

namespace ExportKind

/-- The text of a list of records has one line for each of them, an object without control
characters, and without blanks too unless there are strings in it that a caller may choose, those of
metadata. Two lists of records of one kind with the same text are equal. -/
theorem lines_lossless (kind : ExportKind) (hkind : kind ≠ .peer) (rs : List kind.kind.Record) :
    let sink := Sink.jsonLines kind.json
    ∃ lines, sink.Receives rs {} lines ∧ lines.written = rs.length ∧
      lines.writer.text.toList.splitOn '\n' = rs.map (fun r => (kind.json r).chars) ++ [[]] ∧
      (∀ r ∈ rs, (∃ fields, kind.json r = .object fields) ∧
        (∀ c ∈ (kind.json r).chars, 32 ≤ c.toNat) ∧
        (kind ≠ .metadata → ∀ c ∈ (kind.json r).chars, 32 < c.toNat ∧ c.toNat < 127)) ∧
      ∀ rs' lines', sink.Receives rs' {} lines' → lines'.writer.text = lines.writer.text →
        rs' = rs := by
  intro sink
  refine ⟨.holding kind.json rs, Sink.holds_jsonLines kind.json rs, rfl,
    JsonLines.splitOn_text kind.json rs, ?_, ?_⟩
  · intro r _
    exact ⟨kind.exists_json_eq_object r, (kind.json r).printable_chars,
      fun hmeta => Json.visible_chars (plain_json hmeta r)⟩
  · intro rs' lines' hlines' htext
    cases hlines'.unique (Sink.holds_jsonLines kind.json rs')
    exact (List.map_inj_right fun _ _ => (json_inj hkind).1).1 (JsonLines.map_eq_of_text_eq htext)

/-- An entry with the end of a line in its key, and the version behind it, are the only list of
entries with their two lines. -/
theorem lines_lossless_brokenKey :
    metadata ≠ peer ∧ ∀ rs lines, (Sink.jsonLines MetaEntry.json).Receives rs {} lines →
      lines.writer.text =
        "\x7b\"key\":\"unrecognised\",\"raw_key\":\"a\\nb\",\"raw_value\":\"\"\x7d\n" ++
          "\x7b\"key\":\"version\",\"version\":2\x7d\n" →
      rs = [.unrecognised "a\nb" "", .version 2] := by
  have hne : metadata ≠ peer := by decide
  obtain ⟨lines, hlines, -, -, -, hunique⟩ :=
    lines_lossless .metadata hne [.unrecognised "a\nb" "", .version 2]
  refine ⟨hne, fun rs lines' hlines' heq => hunique rs lines' hlines' ?_⟩
  cases hlines.unique (Sink.holds_jsonLines MetaEntry.json [.unrecognised "a\nb" "", .version 2])
  exact heq.trans rfl

end ExportKind

end NanoLedger
