import NanoLedger.RecordKind

/-!
# The lookups that a record needs

Making a record of an entry looks up at most two keys in other tables: the predecessor of a block
and the confirmation height of an account. `RecordKind.lookups` lists them in their order, the
second one only where the first one leads on. Nothing else in the store has a part in the record: a
store that answers these lookups alike gives the same record, and a store that fails at one of them
gives the error of the first failure, unchanged (`RecordKind.read_eq`).

Where no lookup fails, whatever an entry holds can fail to make a record only with an error that a
pass gets over (`RecordKind.skipsOnly_read`). The proof follows the readers: this holds of every
single read and is kept by reading on.
-/

namespace NanoLedger

variable {α β : Type}

/-! ## Errors that a pass gets over -/

/-- A computation that fails, if at all, with an error that concerns one record only. -/
def SkipsOnly (x : Except LedgerError α) : Prop := ∀ e, x = .error e → e.isSkippable

theorem skipsOnly_ok (a : α) : SkipsOnly (.ok a : Except LedgerError α) := nofun

theorem skipsOnly_error {e : LedgerError} (h : e.isSkippable) :
    SkipsOnly (.error e : Except LedgerError α) := by
  rintro _ ⟨⟩
  exact h

theorem SkipsOnly.bind {x : Except LedgerError α} {f : α → Except LedgerError β}
    (hx : SkipsOnly x) (hf : ∀ a, x = .ok a → SkipsOnly (f a)) : SkipsOnly (x >>= f) := by
  cases x with
  | ok a => exact hf a rfl
  | error e => exact skipsOnly_error (hx e rfl)

namespace Read

/-- A reader that fails, wherever it starts, only with errors that concern one record. -/
def SkipsOnly (r : Read α) : Prop := ∀ c, NanoLedger.SkipsOnly (r.run c).1

theorem SkipsOnly.eval {r : Read α} (h : r.SkipsOnly) (bytes : Bytes) :
    NanoLedger.SkipsOnly (r.eval bytes) :=
  h (.start bytes)

theorem skipsOnly_pure (a : α) : (pure a : Read α).SkipsOnly := fun _ => skipsOnly_ok a

theorem skipsOnly_fail {e : LedgerError} (h : e.isSkippable) : (fail e : Read α).SkipsOnly :=
  fun _ => skipsOnly_error h

theorem skipsOnly_remaining : remaining.SkipsOnly := fun c => skipsOnly_ok c.rest

theorem SkipsOnly.bind {r : Read α} {f : α → Read β} (hr : r.SkipsOnly)
    (hf : ∀ a, (f a).SkipsOnly) : (r >>= f).SkipsOnly := by
  intro c
  rw [run_bind]
  match hrun : r.run c with
  | (.ok a, c') => exact hf a c'
  | (.error e, c') => exact skipsOnly_error (hr c e (by rw [hrun]))

theorem skipsOnly_octets (n : Nat) : (octets n).SkipsOnly := by
  intro c
  by_cases h : n ≤ c.rest.length
  · rw [run_octets_of_le h]
    exact skipsOnly_ok _
  · rw [run_octets_of_lt (Nat.not_le.1 h)]
    exact skipsOnly_error rfl

theorem skipsOnly_byte : byte.SkipsOnly := (skipsOnly_octets 1).bind fun _ => skipsOnly_pure _

end Read

namespace Layout

theorem skipsOnly_read (l : Layout α) : l.read.SkipsOnly :=
  (Read.skipsOnly_octets l.size).bind fun _ => Read.skipsOnly_pure _

theorem skipsOnly_parse (l : Layout α) (bytes : Bytes) : SkipsOnly (l.parse bytes) :=
  l.skipsOnly_read.eval bytes

end Layout

theorem Schema.skipsOnly_decode {κ ν : Type} (s : Schema α κ ν) (key value : Bytes) :
    SkipsOnly (s.decode key value) :=
  (s.key.skipsOnly_parse key).bind fun _ _ => (s.value.skipsOnly_parse value).bind fun _ _ =>
    skipsOnly_ok _

/-- A payload followed by a sideband. -/
theorem Read.skipsOnly_pair {γ : Type} (l : Layout α) (m : Layout β) (f : α → β → γ) :
    (do return f (← l.read) (← m.read) : Read γ).SkipsOnly :=
  l.skipsOnly_read.bind fun _ => m.skipsOnly_read.bind fun _ => skipsOnly_pure _

theorem Block.skipsOnly_decode (value : Bytes) : SkipsOnly (Block.decode value) := by
  refine Read.SkipsOnly.eval (Read.skipsOnly_byte.bind fun tag => ?_) value
  split
  all_goals first
    | exact Read.skipsOnly_pair _ _ _
    | exact Read.skipsOnly_remaining.bind fun _ => Read.skipsOnly_pure _

theorem Block.skipsOnly_fields (b : Block) : SkipsOnly b.fields := by
  cases b with
  | unsupported => exact skipsOnly_error rfl
  | send | receive | opening | change | state => exact skipsOnly_ok _

theorem BlockRecord.skipsOnly_decode (key value : Bytes) :
    SkipsOnly (BlockRecord.decode key value) :=
  (Layout.skipsOnly_parse _ key).bind fun _ _ => (Block.skipsOnly_decode value).bind fun _ _ =>
    skipsOnly_ok _

theorem MetaEntry.skipsOnly_decode (key value : Bytes) : SkipsOnly (MetaEntry.decode key value) := by
  refine (Layout.skipsOnly_parse _ key).bind fun k _ => ?_
  split
  · refine (Layout.skipsOnly_parse _ value).bind fun v _ => ?_
    split <;> exact skipsOnly_ok _
  · exact skipsOnly_ok _

theorem Payload.skipsOnly_read (tag : UInt8) : (Payload.read tag).SkipsOnly := by
  rw [Payload.read]
  split
  all_goals first
    | exact (Layout.skipsOnly_read _).bind fun _ => Read.skipsOnly_pure _
    | exact Read.skipsOnly_remaining.bind fun _ => Read.skipsOnly_pure _

theorem UncheckedInfo.skipsOnly_readValue : UncheckedInfo.readValue.SkipsOnly := by
  refine Read.skipsOnly_byte.bind fun tag => (Payload.skipsOnly_read tag).bind fun block => ?_
  split
  · exact Read.skipsOnly_fail rfl
  · exact (Layout.skipsOnly_read _).bind fun _ => Read.skipsOnly_pure _

theorem UncheckedInfo.skipsOnly_decode (key value : Bytes) :
    SkipsOnly (UncheckedInfo.decode key value) :=
  (Layout.skipsOnly_parse _ key).bind fun _ _ =>
    (UncheckedInfo.skipsOnly_readValue.eval value).bind fun _ _ => skipsOnly_ok _

/-! ## Lookups and their failures -/

/-- A key that is looked up in a table. -/
abbrev Lookup := Table × Bytes

namespace Store

/-- The error of the first lookup that fails, if one does. -/
def fault? (s : Store) (lookups : List Lookup) : Option LedgerError :=
  lookups.findSome? fun q =>
    match s.get q.1 q.2 with
    | .ok _ => none
    | .error e => some e

/-- The lookup of an account's confirmation height. -/
def ownerLookup (account : Account) : Lookup := (.confirmationHeight, account.key.bytes)

/-- The lookups of a block: its predecessor, unless it is the first one of its chain, and then its
owner, unless the predecessor is missing or unreadable. -/
def blockLookups (s : Store) (fields : BlockFields) : List Lookup :=
  if 1 < fields.height then
    (.blocks, fields.previous.bytes) ::
      match s.predecessorBalance fields.previous with
      | .ok _ => [ownerLookup fields.account]
      | .error _ => []
  else [ownerLookup fields.account]

end Store

/-- The lookups that making a record of an entry performs in a store, in their order. -/
def RecordKind.lookups : RecordKind → Store → Entry → List Lookup
  | enrichedBlock, s, e | normalizedBlock, s, e =>
    match (BlockRecord.decode e.key e.value).bind fun record => record.block.fields with
    | .ok fields => s.blockLookups fields
    | .error _ => []
  | enrichedAccount, _, e | normalizedAccount, _, e =>
    match AccountInfo.decode e.key e.value with
    | .ok info => [Store.ownerLookup info.account]
    | .error _ => []
  | _, _, _ => []

namespace Store

variable {s h : Store}

@[simp] theorem fault?_nil (s : Store) : s.fault? [] = none := rfl

theorem fault?_cons_error {q : Lookup} {qs : List Lookup} {e : LedgerError}
    (hq : s.get q.1 q.2 = .error e) : s.fault? (q :: qs) = some e := by
  simp [fault?, hq]

theorem fault?_cons_ok {q : Lookup} {qs : List Lookup} {v : Option Bytes}
    (hq : s.get q.1 q.2 = .ok v) : s.fault? (q :: qs) = s.fault? qs := by
  simp [fault?, hq]

/-- No lookup fails where each of them is answered. -/
theorem fault?_eq_none {qs : List Lookup} :
    s.fault? qs = none ↔ ∀ q ∈ qs, ∃ v, s.get q.1 q.2 = .ok v := by
  induction qs with
  | nil => simp
  | cons q qs ih =>
    cases hq : s.get q.1 q.2 with
    | ok v => simp [fault?_cons_ok hq, ih, hq]
    | error e => simp [fault?_cons_error hq, hq]

/-- A store that answers a lookup as another one does, or fails at it. -/
def AnswersAs (s h : Store) (q : Lookup) : Prop :=
  s.get q.1 q.2 = h.get q.1 q.2 ∨ ∃ e, s.get q.1 q.2 = .error e

/-- What a lookup yields to what follows it: its answer, or its error. -/
theorem AnswersAs.cases {q : Lookup} (hq : s.AnswersAs h q) :
    (∃ e, s.get q.1 q.2 = .error e) ∨
      ∃ v, s.get q.1 q.2 = .ok v ∧ h.get q.1 q.2 = .ok v := by
  cases hs : s.get q.1 q.2 with
  | error e => exact .inl ⟨e, rfl⟩
  | ok v =>
    rcases hq with hq | ⟨e, he⟩
    · exact .inr ⟨v, rfl, hq ▸ hs⟩
    · rw [hs] at he
      cases he

/-! ## What a record takes from a store -/

theorem predecessorBalance_error {hash : BlockHash} {e : LedgerError}
    (hs : s.get .blocks hash.bytes = .error e) : s.predecessorBalance hash = .error e := by
  rw [predecessorBalance, hs]; rfl

theorem predecessorBalance_congr {hash : BlockHash}
    (hs : s.get .blocks hash.bytes = h.get .blocks hash.bytes) :
    s.predecessorBalance hash = h.predecessorBalance hash := by
  rw [predecessorBalance, predecessorBalance, hs]

theorem skipsOnly_predecessorBalance {hash : BlockHash} {v : Option Bytes}
    (hs : s.get .blocks hash.bytes = .ok v) : SkipsOnly (s.predecessorBalance hash) := by
  rw [predecessorBalance, hs]
  cases v with
  | none => exact skipsOnly_error rfl
  | some value =>
    simp only [bind, Except.bind]
    split
    · exact skipsOnly_ok _
    · exact skipsOnly_error rfl

theorem confirmationHeight_error {account : Account} {e : LedgerError}
    (hs : s.get .confirmationHeight account.key.bytes = .error e) :
    s.confirmationHeight account = .error e := by
  rw [confirmationHeight, hs]; rfl

theorem confirmationHeight_congr {account : Account}
    (hs : s.get .confirmationHeight account.key.bytes =
      h.get .confirmationHeight account.key.bytes) :
    s.confirmationHeight account = h.confirmationHeight account := by
  rw [confirmationHeight, confirmationHeight, hs]

theorem skipsOnly_confirmationHeight {account : Account} {v : Option Bytes}
    (hs : s.get .confirmationHeight account.key.bytes = .ok v) :
    SkipsOnly (s.confirmationHeight account) := by
  rw [confirmationHeight, hs]
  cases v with
  | none => exact skipsOnly_ok _
  | some value =>
    simp only [bind, Except.bind]
    split
    · exact skipsOnly_ok _
    · exact skipsOnly_error rfl

/-- The outcome of a computation in front of which a lookup may have failed. -/
def afterFault : Option LedgerError → Except LedgerError α → Except LedgerError α
  | none, x => x
  | some e, _ => .error e

theorem confirmed_eq {fields : BlockFields} (hq : s.AnswersAs h (ownerLookup fields.account)) :
    s.confirmed fields =
      afterFault (s.fault? [ownerLookup fields.account]) (h.confirmed fields) := by
  rcases hq.cases with ⟨e, he⟩ | ⟨v, hs, hh⟩
  · rw [fault?_cons_error he, confirmed, confirmationHeight_error he]; rfl
  · rw [fault?_cons_ok hs, confirmed, confirmationHeight_congr (hs.trans hh.symm)]; rfl

theorem skipsOnly_confirmed {fields : BlockFields}
    (hq : s.fault? [ownerLookup fields.account] = none) : SkipsOnly (s.confirmed fields) := by
  obtain ⟨v, hv⟩ := fault?_eq_none.1 hq _ (.head _)
  exact (skipsOnly_confirmationHeight hv).bind fun _ _ => skipsOnly_ok _

theorem enrich_of_fields {record : BlockRecord} {fields : BlockFields}
    (hf : record.block.fields = .ok fields) :
    s.enrich record = (do
      let amount ← s.amount fields
      let confirmed ← s.confirmed fields
      return { hash := record.hash, block := record.block, fields,
               subtype := Subtype.ofBlock? record.block, amount, confirmed }) := by
  rw [enrich, hf]; rfl

/-- A block takes from a store what its lookups find there, up to the first one that fails. -/
theorem enrich_eq {record : BlockRecord} {fields : BlockFields}
    (hf : record.block.fields = .ok fields)
    (hq : ∀ q ∈ h.blockLookups fields, s.AnswersAs h q) :
    s.enrich record = afterFault (s.fault? (h.blockLookups fields)) (h.enrich record) := by
  rw [enrich_of_fields hf, enrich_of_fields hf]
  by_cases hheight : 1 < fields.height
  · simp only [blockLookups, amount, if_pos hheight] at hq ⊢
    rcases (hq _ (.head _)).cases with ⟨e, he⟩ | ⟨v, hs, hh⟩
    · rw [fault?_cons_error he, predecessorBalance_error he]; rfl
    · rw [fault?_cons_ok hs, predecessorBalance_congr (hs.trans hh.symm)]
      cases hbalance : h.predecessorBalance fields.previous with
      | error e => rfl
      | ok balance =>
        simp only [hbalance] at hq ⊢
        rw [confirmed_eq (hq _ (.tail _ (.head _)))]
        cases s.fault? [ownerLookup fields.account] <;> rfl
  · simp only [blockLookups, amount, if_neg hheight] at hq ⊢
    rw [confirmed_eq (hq _ (.head _))]
    cases s.fault? [ownerLookup fields.account] <;> rfl

theorem skipsOnly_enrich {record : BlockRecord} {fields : BlockFields}
    (hf : record.block.fields = .ok fields) (hq : s.fault? (s.blockLookups fields) = none) :
    SkipsOnly (s.enrich record) := by
  rw [enrich_of_fields hf]
  by_cases hheight : 1 < fields.height
  · simp only [blockLookups, amount, if_pos hheight] at hq ⊢
    obtain ⟨v, hv⟩ := fault?_eq_none.1 hq _ (.head _)
    rw [fault?_cons_ok hv] at hq
    have hbalance := skipsOnly_predecessorBalance hv
    cases hb : s.predecessorBalance fields.previous with
    | error e => exact skipsOnly_error (hbalance e hb)
    | ok balance =>
      simp only [hb] at hq
      exact (skipsOnly_confirmed hq).bind fun _ _ => skipsOnly_ok _
  · simp only [blockLookups, amount, if_neg hheight] at hq ⊢
    exact (skipsOnly_confirmed hq).bind fun _ _ => skipsOnly_ok _

theorem enrichAccount_eq {info : AccountInfo} (hq : s.AnswersAs h (ownerLookup info.account)) :
    s.enrichAccount info =
      afterFault (s.fault? [ownerLookup info.account]) (h.enrichAccount info) := by
  rcases hq.cases with ⟨e, he⟩ | ⟨v, hs, hh⟩
  · rw [fault?_cons_error he, enrichAccount, confirmationHeight_error he]; rfl
  · rw [fault?_cons_ok hs, enrichAccount, confirmationHeight_congr (hs.trans hh.symm)]; rfl

theorem skipsOnly_enrichAccount {info : AccountInfo}
    (hq : s.fault? [ownerLookup info.account] = none) : SkipsOnly (s.enrichAccount info) := by
  obtain ⟨v, hv⟩ := fault?_eq_none.1 hq _ (.head _)
  exact (skipsOnly_confirmationHeight hv).bind fun _ _ => skipsOnly_ok _

end Store

namespace RecordKind

variable {s h : Store}

theorem lookups_normalizedBlock (s : Store) (e : Entry) :
    normalizedBlock.lookups s e = enrichedBlock.lookups s e := rfl

theorem lookups_normalizedAccount (s : Store) (e : Entry) :
    normalizedAccount.lookups s e = enrichedAccount.lookups s e := rfl

theorem readEnrichedBlock_eq {e : Entry}
    (hq : ∀ q ∈ enrichedBlock.lookups h e, s.AnswersAs h q) :
    readEnrichedBlock s e =
      Store.afterFault (s.fault? (enrichedBlock.lookups h e)) (readEnrichedBlock h e) := by
  rw [readEnrichedBlock, readEnrichedBlock, lookups] at *
  cases hrecord : BlockRecord.decode e.key e.value with
  | error err => rfl
  | ok record =>
    cases hf : record.block.fields with
    | error err => simp [Except.bind, bind, hf, Store.enrich, Store.afterFault]
    | ok fields =>
      simp only [hrecord, hf, Except.bind] at hq ⊢
      exact Store.enrich_eq hf hq

theorem readEnrichedAccount_eq {e : Entry}
    (hq : ∀ q ∈ enrichedAccount.lookups h e, s.AnswersAs h q) :
    readEnrichedAccount s e =
      Store.afterFault (s.fault? (enrichedAccount.lookups h e)) (readEnrichedAccount h e) := by
  rw [readEnrichedAccount, readEnrichedAccount, lookups] at *
  cases hinfo : AccountInfo.decode e.key e.value with
  | error err => rfl
  | ok info =>
    simp only [hinfo] at hq ⊢
    exact Store.enrichAccount_eq (hq _ (.head _))

/-- The record of an entry depends on the store through its lookups only. A store that answers each
of them as another store does, or fails at it, gives the record of that store, or the error of the
first lookup that fails. -/
theorem read_eq (kind : RecordKind) {e : Entry} (hq : ∀ q ∈ kind.lookups h e, s.AnswersAs h q) :
    kind.read s e = Store.afterFault (s.fault? (kind.lookups h e)) (kind.read h e) := by
  cases kind with
  | enrichedBlock => exact readEnrichedBlock_eq hq
  | normalizedBlock =>
    rw [read, readEnrichedBlock_eq hq, lookups_normalizedBlock]
    cases s.fault? (enrichedBlock.lookups h e) <;> rfl
  | enrichedAccount => exact readEnrichedAccount_eq hq
  | normalizedAccount =>
    rw [read, readEnrichedAccount_eq hq, lookups_normalizedAccount]
    cases s.fault? (enrichedAccount.lookups h e) <;> rfl
  | block | account | confirmationHeight | pending | frontier | onlineWeight | peer | metadata
  | unchecked => rfl

theorem skipsOnly_readEnrichedBlock {e : Entry}
    (hq : s.fault? (enrichedBlock.lookups s e) = none) : SkipsOnly (readEnrichedBlock s e) := by
  refine (BlockRecord.skipsOnly_decode _ _).bind fun record hrecord => ?_
  rw [lookups, hrecord] at hq
  cases hf : record.block.fields with
  | error err =>
    rw [Store.enrich, hf]
    exact skipsOnly_error (record.block.skipsOnly_fields err hf)
  | ok fields =>
    simp only [Except.bind, hf] at hq
    exact Store.skipsOnly_enrich hf hq

theorem skipsOnly_readEnrichedAccount {e : Entry}
    (hq : s.fault? (enrichedAccount.lookups s e) = none) :
    SkipsOnly (readEnrichedAccount s e) := by
  refine (Schema.skipsOnly_decode _ _ _).bind fun info hinfo => ?_
  rw [lookups, show AccountInfo.decode e.key e.value = .ok info from hinfo] at hq
  exact Store.skipsOnly_enrichAccount hq

/-- Where its lookups are answered, an entry fails to make a record only with an error that a pass
gets over. -/
theorem skipsOnly_read (kind : RecordKind) {e : Entry} (hq : s.fault? (kind.lookups s e) = none) :
    SkipsOnly (kind.read s e) := by
  cases kind with
  | enrichedBlock => exact skipsOnly_readEnrichedBlock hq
  | normalizedBlock => exact (skipsOnly_readEnrichedBlock hq).bind fun _ _ => skipsOnly_ok _
  | enrichedAccount => exact skipsOnly_readEnrichedAccount hq
  | normalizedAccount => exact (skipsOnly_readEnrichedAccount hq).bind fun _ _ => skipsOnly_ok _
  | block => exact BlockRecord.skipsOnly_decode _ _
  | metadata => exact MetaEntry.skipsOnly_decode _ _
  | unchecked => exact UncheckedInfo.skipsOnly_decode _ _
  | account | confirmationHeight | pending | frontier | onlineWeight | peer =>
    exact Schema.skipsOnly_decode _ _ _

end RecordKind

end NanoLedger
