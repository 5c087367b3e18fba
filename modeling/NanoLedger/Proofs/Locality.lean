import NanoLedger.Proofs.Enriching
import NanoLedger.Proofs.Visits

/-!
# Which entries a record depends on

A block refers to the confirmation height of its owner and, above the first height, to its
predecessor; an account refers to its own confirmation height (`Block.RefersTo`,
`RecordKind.RefersTo`). Two stores that give the same answers for what an entry refers to read the
entry alike, to the same record or to the same error (`RecordKind.read_congr`).

So changes of the tables leave the records of other entries alone. An entry that no update touches,
and that refers to nothing that one touches, is read the same before the updates and after them
(`Unaffected.read_eq`), and passes give the same item for it (`Tables.yields_updated`).
-/

namespace NanoLedger

/-! ## References -/

/-- What a block refers to: the confirmation height of its owner and, above the first height, the
block before it. -/
inductive Block.RefersTo (b : Block) : Lookup → Prop
  | owner {account : Account} :
      b.account = .ok account → RefersTo b (.confirmationHeight, account.key.bytes)
  | predecessor {height : UInt64} {previous : BlockHash} : b.height = .ok height →
      2 ≤ height.toNat → b.previous = .ok previous → RefersTo b (.blocks, previous.bytes)

/-- What is looked up for a block is what it refers to. -/
theorem Block.refersTo_of_mem_blockLookups {b : Block} {fields : BlockFields} {s : Store}
    {q : Lookup} (hf : b.fields = .ok fields) (h : q ∈ s.blockLookups fields) : b.RefersTo q := by
  obtain ⟨hheight, -, hprevious, howner⟩ := Block.of_fields hf
  have owner : b.RefersTo (Store.ownerLookup fields.account) := .owner howner
  rw [Store.blockLookups] at h
  split at h
  · next habove =>
    rcases List.mem_cons.1 h with rfl | h
    · exact .predecessor hheight ((one_lt_iff _).1 habove) hprevious
    · split at h
      · exact List.mem_singleton.1 h ▸ owner
      · cases h
  · exact List.mem_singleton.1 h ▸ owner

/-- What an account refers to when its key is read: the confirmation height under the account. -/
theorem AccountInfo.key_of_decode {key value : Bytes} {info : AccountInfo}
    (h : decode key value = .ok info) : info.account.key.bytes = key.take 32 := by
  have hkey : info.account.key.bytes <+: key := (schema.decode_eq_ok.1 h).2.1
  rw [List.prefix_iff_eq_take.1 hkey, info.account.key.length_eq]

namespace RecordKind

/-- What an entry refers to when it is read in a form. -/
def RefersTo : RecordKind → Entry → Lookup → Prop
  | enrichedBlock, e, q | normalizedBlock, e, q =>
    ∃ record, BlockRecord.decode e.key e.value = .ok record ∧ record.block.RefersTo q
  | enrichedAccount, e, q | normalizedAccount, e, q => q = (.confirmationHeight, e.key.take 32)
  | _, _, _ => False

variable {kind : RecordKind} {s s' : Store} {e : Entry} {q : Lookup}

theorem exists_refersTo_of_mem_lookups (h : q ∈ enrichedBlock.lookups s e) :
    ∃ record, BlockRecord.decode e.key e.value = .ok record ∧ record.block.RefersTo q := by
  simp only [lookups] at h
  cases hrecord : BlockRecord.decode e.key e.value with
  | error err =>
    rw [hrecord] at h
    cases h
  | ok record =>
    cases hf : record.block.fields with
    | error err =>
      simp only [hrecord, Except.bind, hf] at h
      cases h
    | ok fields =>
      simp only [hrecord, Except.bind, hf] at h
      exact ⟨record, rfl, Block.refersTo_of_mem_blockLookups hf h⟩

theorem eq_of_mem_lookups (h : q ∈ enrichedAccount.lookups s e) :
    q = (.confirmationHeight, e.key.take 32) := by
  simp only [lookups] at h
  split at h
  · next info hinfo =>
    rw [List.mem_singleton.1 h, Store.ownerLookup, AccountInfo.key_of_decode hinfo]
  · cases h

/-- What is looked up for an entry is what it refers to. -/
theorem refersTo_of_mem_lookups (h : q ∈ kind.lookups s e) : kind.RefersTo e q := by
  cases kind with
  | enrichedBlock => exact exists_refersTo_of_mem_lookups h
  | normalizedBlock => exact exists_refersTo_of_mem_lookups (lookups_normalizedBlock s e ▸ h)
  | enrichedAccount => exact eq_of_mem_lookups h
  | normalizedAccount => exact eq_of_mem_lookups (lookups_normalizedAccount s e ▸ h)
  | block | account | confirmationHeight | pending | frontier | onlineWeight | peer | metadata
  | unchecked => cases h

/-- Stores that answer lookups alike have the same first fault in them. -/
theorem fault?_congr {qs : List Lookup} (h : ∀ q ∈ qs, s.get q.1 q.2 = s'.get q.1 q.2) :
    s.fault? qs = s'.fault? qs := by
  induction qs with
  | nil => rfl
  | cons q qs ih =>
    have hq := h q (.head _)
    cases hs : s.get q.1 q.2 with
    | error err => rw [Store.fault?_cons_error hs, Store.fault?_cons_error (hq ▸ hs)]
    | ok v =>
      rw [Store.fault?_cons_ok hs, Store.fault?_cons_ok (hq ▸ hs)]
      exact ih fun q hq => h q (.tail _ hq)

/-- Stores that answer alike what an entry refers to read the entry alike. -/
theorem read_congr (kind : RecordKind) {e : Entry}
    (h : ∀ q, kind.RefersTo e q → s.get q.1 q.2 = s'.get q.1 q.2) :
    kind.read s e = kind.read s' e := by
  have hlookups : ∀ q ∈ kind.lookups s' e, s.get q.1 q.2 = s'.get q.1 q.2 := by
    intro q hq
    exact h q (refersTo_of_mem_lookups hq)
  calc kind.read s e
      = Store.afterFault (s.fault? (kind.lookups s' e)) (kind.read s' e) :=
        kind.read_eq fun q hq => .inl (hlookups q hq)
    _ = Store.afterFault (s'.fault? (kind.lookups s' e)) (kind.read s' e) := by
        rw [fault?_congr hlookups]
    _ = kind.read s' e := (kind.read_eq fun _ _ => .inl rfl).symm

end RecordKind

/-! ## Updates of other keys -/

/-- The key that an update changes. -/
def Update.place : Update → Lookup
  | insert t key _ => (t, key)
  | erase t key => (t, key)

/-- No update changes a key. -/
def Untouched (us : List Update) (q : Lookup) : Prop := ∀ u ∈ us, u.place ≠ q

instance (us : List Update) (q : Lookup) : Decidable (Untouched us q) := List.decidableBAll _ us

/-- No update changes the key of an entry or a key to which the entry refers. -/
structure Unaffected (us : List Update) (kind : RecordKind) (e : Entry) : Prop where
  key : Untouched us (kind.table, e.key)
  references : ∀ q, kind.RefersTo e q → Untouched us q

namespace Tables

/-- The tables after updates, one after another. -/
def updated (ts : Tables) (us : List Update) : Tables := us.foldl apply ts

theorem find?_apply_of_ne {ts : Tables} {u : Update} {q : Lookup} (h : u.place ≠ q) :
    (ts.apply u).find? q.1 q.2 = ts.find? q.1 q.2 := by
  have hne : ∀ t key, u.place = (t, key) → ¬ (t = q.1 ∧ key = q.2) := by
    rintro t key hplace ⟨rfl, rfl⟩
    exact h hplace
  cases u with
  | insert t key value => rw [apply, find?_insert, if_neg (hne t key rfl)]
  | erase t key => rw [apply, find?_erase, if_neg (hne t key rfl)]

/-- A key that no update changes keeps its value. -/
theorem find?_updated {us : List Update} {q : Lookup} (h : Untouched us q) (ts : Tables) :
    (ts.updated us).find? q.1 q.2 = ts.find? q.1 q.2 := by
  induction us generalizing ts with
  | nil => rfl
  | cons u us ih =>
    have hrest : Untouched us q := fun u hu => h u (.tail _ hu)
    exact (ih hrest (ts.apply u)).trans (find?_apply_of_ne (h u (.head _)))

end Tables

/-- An entry that updates do not affect is read the same after them. -/
theorem Unaffected.read_eq {us : List Update} {kind : RecordKind} {e : Entry}
    (h : Unaffected us kind e) (ts : Tables) :
    kind.read (ts.updated us).store e = kind.read ts.store e :=
  kind.read_congr fun q hq => congrArg Except.ok (Tables.find?_updated (h.references q hq) ts)

/-! ## Passes over tables -/

namespace Tables

variable {ts : Tables} {us : List Update} {kind : RecordKind} {options : PassOptions} {e : Entry}
  {item : Item kind.Record}

/-- Whether a pass over tables begins and makes an item of an entry. -/
def Yields (ts : Tables) (kind : RecordKind) (options : PassOptions) (e : Entry)
    (item : Item kind.Record) : Prop :=
  ∃ p, Pass.start kind ts.store options = .ok p ∧ (e, item) ∈ p.history

/-- Whether an entry of a table lies at or behind the start of a pass. -/
def Reaches (ts : Tables) (t : Table) (start : Option Bytes) (e : Entry) : Prop :=
  ts.find? t e.key = some e.value ∧ AtOrAfter start e.key

/-- A pass makes items of the entries from its start on, of each the one as which it is read. -/
theorem Yields.of_entry (h : ts.Yields kind options e item) :
    ts.Reaches kind.table options.start e ∧ item = Item.ofEntry (kind.read ts.store) e := by
  obtain ⟨p, hp, hmem⟩ := h
  rcases Pass.start_tables_cases kind ts.store ts options rfl with
    ⟨-, hs⟩ | ⟨m, hm, ⟨_, -, -, hs⟩ | ⟨-, hs⟩⟩
  · cases hs.symm.trans hp
  · cases hs.symm.trans hp
  · cases hs.symm.trans hp
    rw [Pass.history_along (Pass.skipsOnly_read_tables ts kind)] at hmem
    obtain ⟨e', he', hvisit⟩ := List.mem_map.1 hmem
    cases hvisit
    exact ⟨(Pass.mem_startingAt hm _ e).1 (List.mem_of_mem_take he'), rfl⟩

/-- Without a limit a pass makes an item of every entry from its start on. -/
theorem yields_unlimited {start : Option Bytes} :
    ts.Yields kind { start } e item ↔
      ts.Reaches kind.table start e ∧ item = Item.ofEntry (kind.read ts.store) e := by
  refine ⟨Yields.of_entry, ?_⟩
  rintro ⟨hreaches, rfl⟩
  rcases Pass.start_tables_cases kind ts.store ts { start } rfl with
    ⟨hnone, -⟩ | ⟨m, hm, hcases⟩
  · rw [Reaches, find?, hnone] at hreaches
    cases hreaches.1
  · have hmem := (Pass.mem_startingAt hm start e).2 hreaches
    rcases hcases with ⟨key, hkey, hnil, -⟩ | ⟨-, hs⟩
    · rw [show start = some key from hkey, hnil] at hmem
      cases hmem
    · refine ⟨_, hs, ?_⟩
      rw [Pass.history_unlimited (Pass.skipsOnly_read_tables ts kind)]
      exact List.mem_map_of_mem hmem

theorem reaches_updated (h : Untouched us (kind.table, e.key)) (start : Option Bytes) :
    (ts.updated us).Reaches kind.table start e ↔ ts.Reaches kind.table start e := by
  rw [Reaches, Reaches, find?_updated h]

/-- A pass without a limit makes the same items of unaffected entries after the updates. -/
theorem yields_updated (h : Unaffected us kind e) (start : Option Bytes) :
    (ts.updated us).Yields kind { start } e item ↔ ts.Yields kind { start } e item := by
  rw [yields_unlimited, yields_unlimited, reaches_updated h.key, Item.ofEntry, Item.ofEntry,
    h.read_eq]

end Tables

/-! ## Reading as a whole -/

/-- Records depend on what they refer to and on nothing else. Stores that give the same answers for
the confirmation height of a block's owner and, from height two on, for the block's predecessor read
the entry of the block alike, to equal records or to equal errors; stores that give the same answer
for the confirmation height under the key of an account read the entry of the account alike.

So updates leave the items of all entries alone that they do not affect: without a limit a pass
makes the same items of them, and whatever the limits are, a pass after the updates gives no other
item under the key of such an entry than a pass before them. -/
theorem reading_is_local :
    (∀ (s s' : Store) (e : Entry),
      (∀ record, BlockRecord.decode e.key e.value = .ok record → ∀ q, record.block.RefersTo q →
        s.get q.1 q.2 = s'.get q.1 q.2) →
      RecordKind.enrichedBlock.read s e = RecordKind.enrichedBlock.read s' e ∧
        RecordKind.normalizedBlock.read s e = RecordKind.normalizedBlock.read s' e) ∧
    (∀ (s s' : Store) (e : Entry),
      s.get .confirmationHeight (e.key.take 32) = s'.get .confirmationHeight (e.key.take 32) →
      RecordKind.enrichedAccount.read s e = RecordKind.enrichedAccount.read s' e ∧
        RecordKind.normalizedAccount.read s e = RecordKind.normalizedAccount.read s' e) ∧
    ∀ (ts : Tables) (us : List Update) (kind : RecordKind) (e : Entry), Unaffected us kind e →
      (∀ start item,
        (ts.updated us).Yields kind { start } e item ↔ ts.Yields kind { start } e item) ∧
      ∀ options options' value item item', ts.Yields kind options e item →
        (ts.updated us).Yields kind options' ⟨e.key, value⟩ item' →
        value = e.value ∧ item' = item := by
  refine ⟨?_, ?_, ?_⟩
  · intro s s' e h
    have hrefers : ∀ q, (∃ record, BlockRecord.decode e.key e.value = .ok record ∧
        record.block.RefersTo q) → s.get q.1 q.2 = s'.get q.1 q.2 := by
      rintro q ⟨record, hrecord, hq⟩
      exact h record hrecord q hq
    exact ⟨RecordKind.enrichedBlock.read_congr hrefers,
      RecordKind.normalizedBlock.read_congr hrefers⟩
  · intro s s' e h
    have hrefers : ∀ q : Lookup, q = (.confirmationHeight, e.key.take 32) →
        s.get q.1 q.2 = s'.get q.1 q.2 := by
      rintro q rfl
      exact h
    exact ⟨RecordKind.enrichedAccount.read_congr hrefers,
      RecordKind.normalizedAccount.read_congr hrefers⟩
  · intro ts us kind e h
    refine ⟨fun start item => Tables.yields_updated h start, ?_⟩
    intro options options' value item item' hbefore hafter
    obtain ⟨⟨hfind, -⟩, rfl⟩ := hbefore.of_entry
    obtain ⟨⟨hfind', -⟩, rfl⟩ := hafter.of_entry
    have hsame : (ts.updated us).find? kind.table e.key = ts.find? kind.table e.key :=
      Tables.find?_updated h.key ts
    obtain rfl : value = e.value :=
      Option.some.inj (hfind'.symm.trans (hsame.trans hfind))
    exact ⟨rfl, by rw [Item.ofEntry, Item.ofEntry, h.read_eq]⟩

namespace Tables

/-- The entry of a block at height two. -/
def secondBlock : Entry := ⟨List.replicate 32 1, (Block.zerosAt 2).stored⟩

/-- The tables of that block and its predecessor. -/
def twoHeights : Tables :=
  ofUpdates [.insert .blocks (List.replicate 32 0) (Block.zerosAt 1).stored,
    .insert .blocks secondBlock.key secondBlock.value]

/-- Updates of the confirmation height of another account and of a key of no block. -/
def otherUpdates : List Update :=
  [.insert .confirmationHeight (List.replicate 32 9) (List.replicate 40 1),
    .erase .blocks (List.replicate 32 9)]

set_option maxRecDepth 2000 in
theorem unaffected_secondBlock : Unaffected otherUpdates .enrichedBlock secondBlock where
  key := by decide
  references := by
    have hrecord : BlockRecord.decode secondBlock.key secondBlock.value =
        .ok ⟨⟨⟨List.replicate 32 1, rfl⟩⟩, .zerosAt 2⟩ := rfl
    rintro q ⟨record, hdecode, hq⟩
    cases hrecord.symm.trans hdecode
    cases hq with
    | owner howner =>
      cases howner
      decide
    | predecessor _ _ hprevious =>
      cases hprevious
      decide

set_option maxRecDepth 2000 in
/-- The block at height two has the amount zero as before. -/
theorem reading_is_local_secondBlock :
    Unaffected otherUpdates .enrichedBlock secondBlock ∧
      ∃ b : EnrichedBlock, b.amount.toNat = 0 ∧
        (twoHeights.updated otherUpdates).Yields .enrichedBlock {} secondBlock (.record b) := by
  obtain ⟨b, hread, hamount⟩ : ∃ b, RecordKind.enrichedBlock.read twoHeights.store secondBlock =
      .ok b ∧ b.amount.toNat = 0 := ⟨_, rfl, rfl⟩
  have hbefore : twoHeights.Yields .enrichedBlock {} secondBlock (.record b) :=
    yields_unlimited.2 ⟨⟨rfl, atOrAfter_none _⟩, (Item.ofEntry_eq_record.2 hread).symm⟩
  obtain ⟨-, -, hpass⟩ := reading_is_local
  exact ⟨unaffected_secondBlock, b, hamount,
    ((hpass twoHeights otherUpdates .enrichedBlock secondBlock unaffected_secondBlock).1 none
      (.record b)).2 hbefore⟩

end Tables

end NanoLedger
