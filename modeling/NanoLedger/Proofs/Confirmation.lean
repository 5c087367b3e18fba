import Mathlib.Logic.ExistsUnique
import NanoLedger.Proofs.Enriching
import NanoLedger.Proofs.Queries

/-!
# The confirmation of an account

A query, the passes over accounts and those over blocks look up the confirmation height of an
account each on its own. All of them depend on the outcome of one lookup, and how the account stands
in the table `confirmation_height` determines it (`Standing.outcome`). So they agree: they show what
is recorded, or height zero where nothing is, and where the record is too short they show nothing at
all (`Ledger.confirmation_views_agree`).
-/

namespace NanoLedger

/-! ## Standings -/

/-- How an account stands in the table `confirmation_height`. -/
inductive Standing where
  | recorded (c : ConfirmationHeight)
  | unrecorded
  | damaged

/-- How an account stands by the value under it in the table `confirmation_height`, or its absence:
a height and a hash can be read from the value, or it is too short for them. -/
inductive StandsBy (a : Account) : Option Bytes → Standing → Prop
  | recorded {value : Bytes} {c : ConfirmationHeight} :
      ConfirmationHeight.decode a.key.bytes value = .ok c → StandsBy a (some value) (.recorded c)
  | unrecorded : StandsBy a none .unrecorded
  | damaged {value : Bytes} : value.length < 40 → StandsBy a (some value) .damaged

theorem standsBy_recorded {a : Account} {entry : Option Bytes} {c : ConfirmationHeight} :
    StandsBy a entry (.recorded c) ↔
      ∃ value, entry = some value ∧ ConfirmationHeight.decode a.key.bytes value = .ok c := by
  constructor
  · intro h
    cases h with
    | recorded hdecode => exact ⟨_, rfl, hdecode⟩
  · rintro ⟨value, rfl, hdecode⟩
    exact .recorded hdecode

theorem standsBy_damaged {a : Account} {entry : Option Bytes} :
    StandsBy a entry .damaged ↔ ∃ value, entry = some value ∧ value.length < 40 := by
  constructor
  · intro h
    cases h with
    | damaged hshort => exact ⟨_, rfl, hshort⟩
  · rintro ⟨value, rfl, hshort⟩
    exact .damaged hshort

/-- What looking up the confirmation height of an account gives. -/
def Standing.outcome (a : Account) : Standing → Except LedgerError (Option ConfirmationHeight)
  | recorded c => .ok (some c)
  | unrecorded => .ok none
  | damaged => .error (.brokenChain
      ("confirmation height of " ++ a.address ++ " unreadable: " ++ LedgerError.truncated.text))

/-- An account stands in exactly one way. -/
theorem existsUnique_standsBy (a : Account) (entry : Option Bytes) :
    ∃! standing, StandsBy a entry standing := by
  cases entry with
  | none =>
    refine ⟨.unrecorded, .unrecorded, ?_⟩
    rintro _ ⟨⟩
    rfl
  | some value =>
    cases hdecode : ConfirmationHeight.decode a.key.bytes value with
    | ok c =>
      refine ⟨.recorded c, .recorded hdecode, ?_⟩
      rintro _ (hc | - | hshort)
      · rw [Except.ok.inj (hc.symm.trans hdecode)]
      · have htruncated := (ConfirmationHeight.decode_account_eq_error a _ _).2 ⟨hshort, rfl⟩
        cases htruncated.symm.trans hdecode
    | error e =>
      have hshort := ((ConfirmationHeight.decode_account_eq_error a _ _).1 hdecode).1
      refine ⟨.damaged, .damaged hshort, ?_⟩
      rintro _ (hc | - | -)
      · cases hc.symm.trans hdecode
      · rfl

/-! ## What is read with the lookup -/

section

variable {s : Store} {a : Account} {standing : Standing}

/-- The lookup of a confirmation height gives what the standing of the account determines. -/
theorem StandsBy.confirmationHeight_eq {entry : Option Bytes} (h : StandsBy a entry standing)
    (hget : s.get .confirmationHeight a.key.bytes = .ok entry) :
    s.confirmationHeight a = standing.outcome a := by
  rw [Store.confirmationHeight, hget]
  cases h with
  | recorded hdecode =>
    simp only [bind, Except.bind, hdecode]
    rfl
  | unrecorded => rfl
  | damaged hshort =>
    have htruncated := (ConfirmationHeight.decode_account_eq_error a _ _).2 ⟨hshort, rfl⟩
    simp only [bind, Except.bind, htruncated]
    rfl

/-- A block that is enriched is compared with what is recorded of its owner, or with zero. -/
theorem Store.confirmed_of_enrich {record : BlockRecord} {b : EnrichedBlock}
    (h : s.enrich record = .ok b) :
    b.block = record.block ∧ b.block.fields = .ok b.fields ∧
      ∃ recorded, s.confirmationHeight b.fields.account = .ok recorded ∧
        b.confirmed = decide (b.fields.height ≤ (recorded.map (·.height)).getD 0) := by
  obtain ⟨fields, hf⟩ | ⟨t, contents, hb⟩ := record.block.fields_cases
  · rw [enrich_of_fields hf] at h
    cases hamount : s.amount fields with
    | error e =>
      rw [hamount] at h
      cases h
    | ok amount =>
      rw [hamount, Store.confirmed] at h
      cases hlookup : s.confirmationHeight fields.account with
      | error e =>
        rw [hlookup] at h
        cases h
      | ok recorded =>
        rw [hlookup] at h
        cases h
        exact ⟨rfl, hf, recorded, hlookup, rfl⟩
  · rw [enrich, hb] at h
    cases h

/-- A block of a known kind whose owner's confirmation height cannot be read is not enriched: its
predecessor is a broken reference, or its owner is one. -/
theorem Store.enrich_of_lookup_error (hs : s.Answers) {record : BlockRecord} {context : String}
    (howner : record.block.account = .ok a)
    (hlookup : s.confirmationHeight a = .error (.brokenChain context)) :
    ∃ context, s.enrich record = .error (.brokenChain context) := by
  -- The predecessor is looked up first, so the error need not be that of the lookup for the owner.
  obtain ⟨outcome, houtcome⟩ := exists_enriches hs record
  cases outcome with
  | error e =>
    obtain ⟨t, contents, hb, -⟩ | ⟨context, rfl⟩ := houtcome.brokenChain
    · rw [hb] at howner
      cases howner
    · exact ⟨context, houtcome.eq⟩
  | ok b =>
    obtain ⟨hblock, hfields, recorded, hrecorded, -⟩ := confirmed_of_enrich houtcome.eq
    obtain ⟨-, -, -, howner'⟩ := Block.of_fields hfields
    rw [hblock] at howner'
    cases howner'.symm.trans howner
    cases hrecorded.symm.trans hlookup

/-- A record that is keyed by account and read under one is of that account. -/
theorem Schema.keyPart_of_decode {α ν : Type} (schema : Schema α Account ν)
    (hkey : schema.key = Account.layout) {value : Bytes} {r : α}
    (h : schema.decode a.key.bytes value = .ok r) : schema.keyPart r = a := by
  have hparse := schema.key.parse_append (schema.keyPart r) (a.key.bytes.drop schema.key.size)
  have hbytes : a.key.bytes = schema.key.write (schema.keyPart r) ++ _ :=
    (schema.eq_encode_of_decode h).1
  rw [← hbytes, hkey] at hparse
  have hself := Account.layout.parse_append a []
  rw [List.append_nil] at hself
  exact (Except.ok.inj (hself.symm.trans hparse)).symm

/-- An account is read with what is looked up for it. -/
theorem RecordKind.read_enrichedAccount {e : Entry} {info : AccountInfo}
    (hdecode : AccountInfo.decode e.key e.value = .ok info) :
    enrichedAccount.read s e =
      (s.confirmationHeight info.account).map fun c => EnrichedAccount.mk info c := by
  rw [read, readEnrichedAccount, hdecode]
  simp only [bind, Except.bind, Store.enrichAccount]
  cases s.confirmationHeight info.account <;> rfl

/-- A block is read as it is enriched. -/
theorem RecordKind.read_enrichedBlock {e : Entry} {record : BlockRecord}
    (hdecode : BlockRecord.decode e.key e.value = .ok record) :
    enrichedBlock.read s e = s.enrich record := by
  rw [read, readEnrichedBlock, hdecode]
  rfl

/-- A block that is read was enriched. -/
theorem RecordKind.exists_enrich_of_read {e : Entry} {b : EnrichedBlock}
    (h : enrichedBlock.read s e = .ok b) : ∃ record, s.enrich record = .ok b := by
  cases hdecode : BlockRecord.decode e.key e.value with
  | error error =>
    rw [read, readEnrichedBlock, hdecode] at h
    cases h
  | ok record => exact ⟨record, read_enrichedBlock hdecode ▸ h⟩

end

/-! ## Views of a ledger -/

namespace Ledger

/-- How an account stands in a ledger. -/
def Stands (l : Ledger) (a : Account) (standing : Standing) : Prop :=
  StandsBy a (l.tables.find? .confirmationHeight a.key.bytes) standing

/-- Whether a pass without start and limit begins and gives one item for a key and no other one. -/
def Gives (l : Ledger) (kind : RecordKind) (key : Bytes) (item : Item kind.Record) : Prop :=
  ∃ p, Pass.start kind l.snapshot {} = .ok p ∧ ∀ x, p.Gives key x ↔ x = item

/-- Whether a pass, with any start and limit, gives a record. -/
def Produces (l : Ledger) (kind : RecordKind) (r : kind.Record) : Prop :=
  ∃ options p n, Pass.start kind l.snapshot options = .ok p ∧ some (.record r) ∈ (p.run n).1

/-- A pass over blocks gives a block of an account at a height, enriched or normalized, and shows
whether it is confirmed. -/
inductive ShowsBlock (l : Ledger) (a : Account) (height : UInt64) : Bool → Prop
  | enriched {b : EnrichedBlock} : l.Produces .enrichedBlock b → b.block.account = .ok a →
      b.block.height = .ok height → ShowsBlock l a height b.confirmed
  | normalized {b : NormalizedBlock} : l.Produces .normalizedBlock b → b.account = a →
      b.height = height → ShowsBlock l a height b.confirmed

/-- The entry of an account, if it can be read, is shown with a height and a block up to which the
account is confirmed. -/
def ShowsAccount (l : Ledger) (a : Account) (height : UInt64) (frontier : Option BlockHash) :
    Prop :=
  ∀ value info, l.tables.find? .accounts a.key.bytes = some value →
    AccountInfo.decode a.key.bytes value = .ok info →
      ∃ r : NormalizedAccount, l.Gives .normalizedAccount a.key.bytes (.record r) ∧
        r.account = a ∧ r.confirmationHeight = height ∧ r.confirmationHeightFrontier = frontier

/-- The blocks of an account that passes give are confirmed exactly up to a height. -/
def ConfirmsUpTo (l : Ledger) (a : Account) (height : UInt64) : Prop :=
  ∀ blockHeight confirmed, l.ShowsBlock a blockHeight confirmed →
    (confirmed = true ↔ blockHeight ≤ height)

/-- A pass passes over the entry of a key because it refers to something that cannot be read. -/
def SkipsBroken (l : Ledger) (kind : RecordKind) (key : Bytes) : Prop :=
  ∃ context, l.Gives kind key (.failure ⟨key, .brokenChain context⟩)

/-- The entry of an account, if it can be read, is passed over. -/
def SkipsAccount (l : Ledger) (a : Account) : Prop :=
  ∀ value info, l.tables.find? .accounts a.key.bytes = some value →
    AccountInfo.decode a.key.bytes value = .ok info →
      l.SkipsBroken .enrichedAccount a.key.bytes ∧ l.SkipsBroken .normalizedAccount a.key.bytes

/-- The blocks of an account, as far as they are of a known kind, are passed over. -/
def SkipsBlocks (l : Ledger) (a : Account) : Prop :=
  ∀ key value record, l.tables.find? .blocks key = some value →
    BlockRecord.decode key value = .ok record → record.block.account = .ok a →
      l.SkipsBroken .enrichedBlock key ∧ l.SkipsBroken .normalizedBlock key

variable {l : Ledger} {a : Account} {standing : Standing} {kind : RecordKind}

/-- A pass makes of an entry what is read over the tables. -/
theorem gives_of_find? {key value : Bytes} (h : l.tables.find? kind.table key = some value) :
    l.Gives kind key (Item.ofEntry (kind.read l.tables.store) ⟨key, value⟩) := by
  have hread : kind.read l.snapshot = kind.read l.tables.store :=
    funext (l.serves_snapshot.read_eq kind)
  rw [← hread]
  have hstart : (none : Option Bytes) ≠ some [] := nofun
  exact Pass.exists_start_gives l.serves_snapshot hstart h (atOrAfter_none _)

theorem gives_of_ok {key value : Bytes} {r : kind.Record}
    (h : l.tables.find? kind.table key = some value)
    (hread : kind.read l.tables.store ⟨key, value⟩ = .ok r) : l.Gives kind key (.record r) := by
  have hgives := gives_of_find? h
  rwa [Item.ofEntry, hread] at hgives

theorem gives_of_error {key value : Bytes} {e : LedgerError}
    (h : l.tables.find? kind.table key = some value)
    (hread : kind.read l.tables.store ⟨key, value⟩ = .error e) :
    l.Gives kind key (.failure ⟨key, e⟩) := by
  have hgives := gives_of_find? h
  rwa [Item.ofEntry, hread] at hgives

/-- A record that a pass gives was read over the tables. -/
theorem Produces.exists_read {r : kind.Record} (h : l.Produces kind r) :
    ∃ e, kind.read l.tables.store e = .ok r := by
  obtain ⟨options, p, n, hp, hmem⟩ := h
  obtain ⟨e, -, he⟩ := Pass.exists_read_of_mem_run hmem
  rw [Pass.read_of_start hp, l.serves_snapshot.read_eq] at he
  exact ⟨e, he⟩

/-- The standing of an account determines what a query for it gives. -/
theorem Stands.getConfirmationHeight_eq (h : l.Stands a standing) :
    l.getConfirmationHeight a = standing.outcome a :=
  h.confirmationHeight_eq (l.serves_snapshot.get_eq _ _ a.key.bytes_ne_nil)

/-- The standing of an account determines what is looked up for records. -/
theorem Stands.lookup_eq (h : l.Stands a standing) :
    l.tables.store.confirmationHeight a = standing.outcome a :=
  h.confirmationHeight_eq rfl

/-! ### Blocks -/

/-- Whether a pass shows a block as confirmed depends on what is looked up for its account. -/
theorem ShowsBlock.confirmed_eq {height : UInt64} {confirmed : Bool}
    (h : l.ShowsBlock a height confirmed) :
    ∃ recorded, l.tables.store.confirmationHeight a = .ok recorded ∧
      confirmed = decide (height ≤ (recorded.map (·.height)).getD 0) := by
  cases h with
  | @enriched b hb howner hheight =>
    obtain ⟨e, he⟩ := hb.exists_read
    obtain ⟨record, hrecord⟩ := RecordKind.exists_enrich_of_read he
    obtain ⟨-, hfields, hconfirmed⟩ := Store.confirmed_of_enrich hrecord
    obtain ⟨hheight', -, -, howner'⟩ := Block.of_fields hfields
    cases howner'.symm.trans howner
    cases hheight'.symm.trans hheight
    exact hconfirmed
  | @normalized b hb howner hheight =>
    obtain ⟨e, he⟩ := hb.exists_read
    obtain ⟨b', hread, rfl⟩ := RecordKind.converts_normalizedBlock.exists_read he
    obtain ⟨record, hrecord⟩ := RecordKind.exists_enrich_of_read hread
    subst howner hheight
    exact (Store.confirmed_of_enrich hrecord).2.2

/-- Where a lookup succeeds, blocks are confirmed up to the height that it gives. -/
theorem confirmsUpTo_of_lookup {recorded : Option ConfirmationHeight}
    (hlookup : l.tables.store.confirmationHeight a = .ok recorded) :
    l.ConfirmsUpTo a ((recorded.map (·.height)).getD 0) := by
  intro height confirmed h
  obtain ⟨recorded', hrecorded, rfl⟩ := h.confirmed_eq
  cases hrecorded.symm.trans hlookup
  exact decide_eq_true_iff

/-- Where a lookup fails, no block is shown at all. -/
theorem not_showsBlock_of_lookup {e : LedgerError}
    (hlookup : l.tables.store.confirmationHeight a = .error e) (height : UInt64)
    (confirmed : Bool) : ¬ l.ShowsBlock a height confirmed := by
  intro h
  obtain ⟨recorded, hrecorded, -⟩ := h.confirmed_eq
  cases hrecorded.symm.trans hlookup

/-- A failure to read an entry of one kind is one to read it of a kind that converts it. -/
theorem skipsBroken_of_error {kind' : RecordKind} {f : kind.Record → kind'.Record}
    (hconverts : RecordKind.Converts kind kind' f) {key value : Bytes} {context : String}
    (hfind : l.tables.find? kind.table key = some value)
    (hread : kind.read l.tables.store ⟨key, value⟩ = .error (.brokenChain context)) :
    l.SkipsBroken kind key ∧ l.SkipsBroken kind' key := by
  refine ⟨⟨context, gives_of_error hfind hread⟩, context, ?_⟩
  refine gives_of_error (hconverts.table_eq ▸ hfind) ?_
  rw [hconverts.read_eq, hread]
  rfl

/-- Where a lookup fails, the blocks of the account are passed over. -/
theorem skipsBlocks_of_lookup {context : String}
    (hlookup : l.tables.store.confirmationHeight a = .error (.brokenChain context)) :
    l.SkipsBlocks a := by
  intro key value record hfind hdecode howner
  have hs : l.tables.store.Answers := fun t key => ⟨_, l.tables.get_store t key⟩
  obtain ⟨context', henrich⟩ := Store.enrich_of_lookup_error hs howner hlookup
  rw [← RecordKind.read_enrichedBlock (e := ⟨key, value⟩) hdecode] at henrich
  exact skipsBroken_of_error RecordKind.converts_normalizedBlock hfind henrich

/-! ### Accounts -/

/-- Where a lookup succeeds, the account is shown with what it gives. -/
theorem showsAccount_of_lookup {recorded : Option ConfirmationHeight}
    (hlookup : l.tables.store.confirmationHeight a = .ok recorded) :
    l.ShowsAccount a ((recorded.map (·.height)).getD 0) (recorded.map (·.frontier)) := by
  intro value info hfind hdecode
  obtain rfl : info.account = a := AccountInfo.schema.keyPart_of_decode rfl hdecode
  refine ⟨(EnrichedAccount.mk info recorded).normalize, gives_of_ok hfind ?_, rfl, rfl, rfl⟩
  rw [RecordKind.converts_normalizedAccount.read_eq, RecordKind.read_enrichedAccount hdecode,
    hlookup]
  rfl

/-- Where a lookup fails, the account is passed over. -/
theorem skipsAccount_of_lookup {context : String}
    (hlookup : l.tables.store.confirmationHeight a = .error (.brokenChain context)) :
    l.SkipsAccount a := by
  intro value info hfind hdecode
  obtain rfl : info.account = a := AccountInfo.schema.keyPart_of_decode rfl hdecode
  have hread : RecordKind.enrichedAccount.read l.tables.store ⟨info.account.key.bytes, value⟩ =
      .error (.brokenChain context) := by
    rw [RecordKind.read_enrichedAccount hdecode, hlookup]
    rfl
  exact skipsBroken_of_error RecordKind.converts_normalizedAccount hfind hread

/-! ### All views -/

/-- All views of the confirmation of an account agree. The account stands in exactly one of three
ways. If a record can be read for it, the query and the pass over the records give it, the account
is shown with its height and block, and the blocks of the account are confirmed exactly up to that
height. If there is no record, the query gives none, the account is shown with height zero and no
block, and the blocks are confirmed up to height zero. If the record is too short, the query fails
because of a broken reference, and the account and its blocks are passed over for that reason; only
the pass over the records themselves finds that one is cut short.

So of two blocks of an account that passes give, the lower one is confirmed if the higher one is. -/
theorem confirmation_views_agree (l : Ledger) (a : Account) :
    (∃! standing, l.Stands a standing) ∧
    (∀ c, l.Stands a (.recorded c) →
      l.getConfirmationHeight a = .ok (some c) ∧ c.account = a ∧
      l.Gives .confirmationHeight a.key.bytes (.record c) ∧
      l.ShowsAccount a c.height (some c.frontier) ∧ l.ConfirmsUpTo a c.height) ∧
    (l.Stands a .unrecorded →
      l.getConfirmationHeight a = .ok none ∧ l.ShowsAccount a 0 none ∧ l.ConfirmsUpTo a 0) ∧
    (l.Stands a .damaged →
      (∃ context, l.getConfirmationHeight a = .error (.brokenChain context)) ∧
      l.SkipsAccount a ∧ l.SkipsBlocks a ∧
      (∀ height confirmed, ¬ l.ShowsBlock a height confirmed) ∧
      l.Gives .confirmationHeight a.key.bytes (.failure ⟨a.key.bytes, .truncated⟩)) ∧
    ∀ height height' confirmed, l.ShowsBlock a height confirmed → l.ShowsBlock a height' true →
      height ≤ height' → confirmed = true := by
  refine ⟨existsUnique_standsBy a _, fun c h => ?_, fun h => ?_, fun h => ?_, ?_⟩
  · have hlookup := h.lookup_eq
    obtain ⟨value, hfind, hdecode⟩ := standsBy_recorded.1 h
    exact ⟨h.getConfirmationHeight_eq, ConfirmationHeight.schema.keyPart_of_decode rfl hdecode,
      gives_of_ok hfind hdecode, showsAccount_of_lookup hlookup, confirmsUpTo_of_lookup hlookup⟩
  · have hlookup := h.lookup_eq
    exact ⟨h.getConfirmationHeight_eq, showsAccount_of_lookup hlookup,
      confirmsUpTo_of_lookup hlookup⟩
  · have hlookup := h.lookup_eq
    obtain ⟨value, hfind, hshort⟩ := standsBy_damaged.1 h
    have hdecode := (ConfirmationHeight.decode_account_eq_error a value _).2 ⟨hshort, rfl⟩
    exact ⟨⟨_, h.getConfirmationHeight_eq⟩, skipsAccount_of_lookup hlookup,
      skipsBlocks_of_lookup hlookup, not_showsBlock_of_lookup hlookup,
      gives_of_error hfind hdecode⟩
  · intro height height' confirmed h h' hle
    obtain ⟨recorded, hlookup, rfl⟩ := h.confirmed_eq
    have hhigher := (confirmsUpTo_of_lookup hlookup _ _ h').1 rfl
    exact decide_eq_true (UInt64.le_trans hle hhigher)

/-- The account all of whose bytes are the same. -/
def owner (byte : UInt8) : Account := ⟨⟨List.replicate 32 byte, List.length_replicate⟩⟩

/-- A ledger in which an account with two blocks is confirmed up to height two, the record of another
account is cut short, and a third one has no record. -/
def threeOwners : Ledger :=
  ⟨.ofUpdates [
    .insert .confirmationHeight (owner 0).key.bytes (2 :: List.replicate 39 0),
    .insert .confirmationHeight (owner 1).key.bytes [2],
    .insert .accounts (owner 1).key.bytes (List.replicate 128 0),
    .insert .accounts (owner 2).key.bytes (List.replicate 128 0),
    .insert .blocks (List.replicate 32 0) (Block.zerosAt 1).stored,
    .insert .blocks (List.replicate 32 1) (Block.zerosAt 2).stored]⟩

set_option maxRecDepth 2000 in
theorem showsBlock_threeOwners : threeOwners.ShowsBlock (owner 0) 2 true := by
  obtain ⟨p, b, hp, hitem, howner, hheight, hconfirmed⟩ :
      ∃ p b, Pass.start .enrichedBlock threeOwners.snapshot {} = .ok p ∧
        (p.run 2).1[1]? = some (some (.record b)) ∧ b.block.account = .ok (owner 0) ∧
        b.block.height = .ok 2 ∧ b.confirmed = true := ⟨_, _, rfl, rfl, rfl, rfl, rfl⟩
  exact hconfirmed ▸ .enriched ⟨{}, p, 2, hp, List.mem_of_getElem? hitem⟩ howner hheight

/-- As the block at height two is confirmed the one below it is, the account whose record is cut
short is passed over, and the one without a record is shown with height zero. -/
theorem confirmation_views_agree_threeOwners :
    (threeOwners.Stands (owner 0) (.recorded ⟨owner 0, 2, .zero .blockHash⟩) ∧
      threeOwners.getConfirmationHeight (owner 0) =
        .ok (some ⟨owner 0, 2, .zero .blockHash⟩) ∧
      threeOwners.ShowsBlock (owner 0) 2 true ∧
      ∀ confirmed, threeOwners.ShowsBlock (owner 0) 1 confirmed → confirmed = true) ∧
    (threeOwners.Stands (owner 1) .damaged ∧
      threeOwners.SkipsBroken .normalizedAccount (owner 1).key.bytes) ∧
    threeOwners.Stands (owner 2) .unrecorded ∧
      ∃ r : NormalizedAccount,
        threeOwners.Gives .normalizedAccount (owner 2).key.bytes (.record r) ∧
          r.confirmationHeight = 0 ∧ r.confirmationHeightFrontier = none := by
  have hrecorded : threeOwners.Stands (owner 0)
      (.recorded ⟨owner 0, 2, .zero .blockHash⟩) := .recorded rfl
  have hdamaged : threeOwners.Stands (owner 1) .damaged := .damaged (by decide)
  have hunrecorded : threeOwners.Stands (owner 2) .unrecorded := .unrecorded
  obtain ⟨-, hfirst, -, -, hlower⟩ := confirmation_views_agree threeOwners (owner 0)
  obtain ⟨-, -, -, hsecond, -⟩ := confirmation_views_agree threeOwners (owner 1)
  obtain ⟨-, -, hthird, -⟩ := confirmation_views_agree threeOwners (owner 2)
  obtain ⟨r, hgives, -, hheight, hfrontier⟩ := (hthird hunrecorded).2.1 _ _ rfl rfl
  exact ⟨⟨hrecorded, (hfirst _ hrecorded).1, showsBlock_threeOwners,
      fun confirmed h => hlower 1 2 confirmed h showsBlock_threeOwners (by decide)⟩,
    ⟨hdamaged, ((hsecond hdamaged).2.1 _ _ rfl rfl).2⟩,
    hunrecorded, r, hgives, hheight, hfrontier⟩

end Ledger

end NanoLedger
