import NanoLedger.Proofs.Enriching

/-!
# What all kinds of blocks have in common

The common fields of a block are there twice: one by one (`Block.height`, `Block.account` and so on)
and together (`Block.fields`), with the same datum in the payload for some kinds and in the sideband
for others. `Block.HasFields` says that the two agree, and which of the optional fields a kind has;
`Block.HasNoFields` says that an opaque block has none of them, in either way, for the one reason
that its tag is unknown. Every value that can be read holds a block of the one or of the other sort,
as its first byte tells (`Block.fields_of_decode`).
-/

namespace NanoLedger

namespace Block

/-- The common fields of a block of a kind, which are those that the accessors return. -/
structure HasFields (b : Block) (type : BlockType) (fields : BlockFields) : Prop where
  type_eq : b.type? = some type
  fields_eq : b.fields = .ok fields
  blockType_eq : fields.blockType = type
  height_eq : b.height = .ok fields.height
  account_eq : b.account = .ok fields.account
  balance_eq : b.balance = .ok fields.balance
  previous_eq : b.previous = .ok fields.previous
  of_opening : type = .opening → fields.height = 1 ∧ fields.previous = .zero .blockHash
  representative_iff : fields.representative.isSome ↔ type ∈ [.opening, .change, .state]
  link_iff : fields.link = none ↔ type = .change
  linkAsAccount_iff : fields.linkAsAccount.isSome ↔ type ∈ [.send, .state]
  bytes_link : ∀ a, fields.linkAsAccount = some a →
    ∃ l, fields.link = some l ∧ l.bytes = a.key.bytes

/-- A block that has none of the common fields, its tag being unknown. -/
structure HasNoFields (b : Block) (t : UInt8) : Prop where
  type_eq : b.type? = none
  fields_eq : b.fields = .error (.unsupported t)
  height_eq : b.height = .error (.unsupported t)
  account_eq : b.account = .error (.unsupported t)
  balance_eq : b.balance = .error (.unsupported t)
  previous_eq : b.previous = .error (.unsupported t)

variable {b : Block} {fields : BlockFields}

theorem type?_of_fields (h : b.fields = .ok fields) : b.type? = some fields.blockType := by
  cases b with
  | unsupported t contents => cases h
  | send | receive | opening | change | state =>
    cases h
    rfl

/-- The first block of a chain stands at height one and has no predecessor. -/
theorem opening_of_fields (h : b.fields = .ok fields) (htype : fields.blockType = .opening) :
    fields.height = 1 ∧ fields.previous = .zero .blockHash := by
  cases b with
  | unsupported t contents => cases h
  | opening p s =>
    cases h
    exact ⟨rfl, rfl⟩
  | send | receive | change | state =>
    cases h
    cases htype

theorem representative_isSome_iff (h : b.fields = .ok fields) :
    fields.representative.isSome ↔ fields.blockType ∈ [.opening, .change, .state] := by
  cases b with
  | unsupported t contents => cases h
  | send | receive | opening | change | state =>
    cases h
    simp

theorem link_eq_none_iff (h : b.fields = .ok fields) :
    fields.link = none ↔ fields.blockType = .change := by
  cases b with
  | unsupported t contents => cases h
  | send | receive | opening | change | state =>
    cases h
    simp

theorem linkAsAccount_isSome_iff (h : b.fields = .ok fields) :
    fields.linkAsAccount.isSome ↔ fields.blockType ∈ [.send, .state] := by
  cases b with
  | unsupported t contents => cases h
  | send | receive | opening | change | state =>
    cases h
    simp

/-- A link that may name an account names the account with the bytes of the link. -/
theorem bytes_link_of_fields (h : b.fields = .ok fields) {a : Account}
    (ha : fields.linkAsAccount = some a) :
    ∃ l, fields.link = some l ∧ l.bytes = a.key.bytes := by
  cases b with
  | unsupported t contents => cases h
  | send p s | state p s =>
    cases h
    cases ha
    exact ⟨_, rfl, rfl⟩
  | receive | opening | change =>
    cases h
    cases ha

theorem hasFields_of_fields (h : b.fields = .ok fields) : b.HasFields fields.blockType fields where
  type_eq := type?_of_fields h
  fields_eq := h
  blockType_eq := rfl
  height_eq := (of_fields h).1
  account_eq := (of_fields h).2.2.2
  balance_eq := balance_eq_ok.2 (of_fields h).2.1
  previous_eq := (of_fields h).2.2.1
  of_opening := opening_of_fields h
  representative_iff := representative_isSome_iff h
  link_iff := link_eq_none_iff h
  linkAsAccount_iff := linkAsAccount_isSome_iff h
  bytes_link _ := bytes_link_of_fields h

theorem hasNoFields_unsupported (t : UInt8) (contents : Bytes) :
    (unsupported t contents).HasNoFields t :=
  ⟨rfl, rfl, rfl, rfl, rfl, rfl⟩

/-- The tag of a block with common fields is that of a kind which is stored, and the value of the
block begins with it. -/
theorem head?_of_fields {v : Bytes} (h : decode v = .ok b) (hf : b.fields = .ok fields) :
    fields.blockType ∈ [.send, .receive, .opening, .change, .state] ∧
      v.head? = some fields.blockType.tag := by
  have htype : b.type? ≠ none := by
    rw [type?_of_fields hf]
    exact Option.some_ne_none _
  obtain ⟨rest, rfl⟩ := (decode_eq_ok htype v).1 h
  cases b with
  | unsupported t contents => cases hf
  | send | receive | opening | change | state =>
    cases hf
    exact ⟨by simp, rfl⟩

/-- What can be said of a value of the table `blocks` that can be read. If its first byte is the tag
of a kind that is stored, the block is of that kind and has the common fields, the same ones
together as one by one. Otherwise the block is opaque, and asking for any of them fails for the
tag. -/
theorem fields_of_decode {v : Bytes} {b : Block} (h : decode v = .ok b) :
    (∃ type fields, type ∈ [.send, .receive, .opening, .change, .state] ∧
      v.head? = some type.tag ∧ b.HasFields type fields) ∨
    ∃ t contents, v.head? = some t ∧ t ∉ [2, 3, 4, 5, 6] ∧ b = .unsupported t contents ∧
      b.HasNoFields t := by
  obtain ⟨fields, hf⟩ | ⟨t, contents, rfl⟩ := b.fields_cases
  · obtain ⟨htype, hhead⟩ := head?_of_fields h hf
    exact .inl ⟨fields.blockType, fields, htype, hhead, hasFields_of_fields hf⟩
  · obtain ⟨rfl, ht⟩ := (decode_eq_unsupported t contents v).1 h
    exact .inr ⟨t, contents, rfl, ht, rfl, hasNoFields_unsupported t contents⟩

/-- A state block with its common fields, and a value with the tag seven without any. -/
theorem fields_of_decode_zerosAt :
    decode (zerosAt 2).stored = .ok (zerosAt 2) ∧
      (∃ fields, (zerosAt 2).HasFields .state fields) ∧
      decode [7, 8] = .ok (.unsupported 7 [8]) ∧ (Block.unsupported 7 [8]).HasNoFields 7 := by
  have htype : (zerosAt 2).type? ≠ none := nofun
  have hzeros : decode (zerosAt 2).stored = .ok (zerosAt 2) :=
    (decode_eq_ok htype _).2 List.prefix_rfl
  have hseven : decode [7, 8] = .ok (.unsupported 7 [8]) := rfl
  refine ⟨hzeros, ?_, hseven, ?_⟩
  · obtain ⟨type, fields, -, -, hfields⟩ | ⟨t, contents, -, -, hb, -⟩ := fields_of_decode hzeros
    · obtain rfl : BlockType.state = type := Option.some.inj hfields.type_eq
      exact ⟨fields, hfields⟩
    · cases hb
  · obtain ⟨type, fields, -, -, hfields⟩ | ⟨t, contents, -, -, hb, hnone⟩ := fields_of_decode hseven
    · cases hfields.type_eq
    · cases hb
      exact hnone

end Block

end NanoLedger
