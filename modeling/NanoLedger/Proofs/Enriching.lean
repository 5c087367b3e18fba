import NanoLedger.Normalized
import NanoLedger.Proofs.BlockFormat
import NanoLedger.Proofs.Failures

/-!
# What enriching a block comes to

The outcome of an enrichment is described here without its steps, by relations between the block,
the values of at most two entries and the result: what an entry of the table `blocks` says about a
balance (`BalanceAt`), what an entry of the table `confirmation_height` says about a height
(`HeightAt`), the amount (`AmountOf`), the subtype (`SubtypeOf`), and all of them together
(`Enriches`). Values are told by the bytes they begin with.

Each relation leaves exactly one result to every input. It is enough to show that the outcome that
a relation gives is the one that is computed, and that it gives one at all; from both comes that
`Store.enrich` and `Enriches` are the same (`Store.enrich_iff`). `Store.enrich_unrecorded` is about
accounts of which nothing was recorded.
-/

namespace NanoLedger

open ByteOrder

/-! ## Relations -/

/-- Where a block keeps the balance of its account: send and state blocks in the payload, the others
in the sideband. -/
inductive Block.Keeps : Block → Balance → Prop
  | send (p : SendPayload) (s : SendSideband) : Keeps (.send p s) p.balance
  | receive (p : ReceivePayload) (s : ReceiveSideband) : Keeps (.receive p s) s.balance
  | opening (p : OpenPayload) (s : OpenSideband) : Keeps (.opening p s) s.balance
  | change (p : ChangePayload) (s : ChangeSideband) : Keeps (.change p s) s.balance
  | state (p : StatePayload) (s : StateSideband) : Keeps (.state p s) p.balance

/-- What the value under a hash in the table `blocks`, or its absence, says about the balance of a
block that names the hash as its predecessor. -/
inductive BalanceAt (hash : BlockHash) : Option Bytes → Except LedgerError Balance → Prop
  | absent : BalanceAt hash none
      (.error (.brokenChain ("predecessor " ++ hash.text ++ " not found")))
  | short {value : Bytes} : Block.Short value → BalanceAt hash (some value)
      (.error (.brokenChain ("predecessor " ++ hash.text ++ " unreadable: " ++ "truncated record")))
  | unknown {t : UInt8} {contents : Bytes} : t ∉ [2, 3, 4, 5, 6] →
      BalanceAt hash (some (t :: contents)) (.error (.brokenChain ("predecessor " ++ hash.text ++
        " unreadable: " ++ ("unsupported block tag " ++ toString t.toNat))))
  | stored {b : Block} {balance : Balance} (rest : Bytes) : b.Keeps balance →
      BalanceAt hash (some (b.stored ++ rest)) (.ok balance)

/-- What the value under an account in the table `confirmation_height`, or its absence, says about
the height up to which the account is confirmed: eight bytes, with the hash of a block behind
them. -/
inductive HeightAt (owner : Account) : Option Bytes → Except LedgerError Nat → Prop
  | absent : HeightAt owner none (.ok 0)
  | short {value : Bytes} : value.length < 40 → HeightAt owner (some value) (.error (.brokenChain
      ("confirmation height of " ++ owner.address ++ " unreadable: " ++ "truncated record")))
  | recorded (height : UInt64) (frontier : BlockHash) (rest : Bytes) :
      HeightAt owner (some (littleEndian.spell 8 height.toNat ++ frontier.bytes ++ rest))
        (.ok height.toNat)

/-- The amount of a block: all of its balance at the first height and below it, and above it the
distance to the balance of its predecessor. -/
inductive AmountOf (s : Store) (b : Block) : Except LedgerError Balance → Prop
  | all {height : UInt64} {balance : Balance} :
      b.height = .ok height → height.toNat ≤ 1 → b.Keeps balance → AmountOf s b (.ok balance)
  | distance {height : UInt64} {previous : BlockHash} {entry : Option Bytes}
      {before balance amount : Balance} :
      b.height = .ok height → 2 ≤ height.toNat → b.previous = .ok previous →
      s.get .blocks previous.bytes = .ok entry → BalanceAt previous entry (.ok before) →
      b.Keeps balance →
      amount.toNat = ((before.toNat : Int) - balance.toNat).natAbs → AmountOf s b (.ok amount)
  | broken {height : UInt64} {previous : BlockHash} {entry : Option Bytes} {e : LedgerError} :
      b.height = .ok height → 2 ≤ height.toNat → b.previous = .ok previous →
      s.get .blocks previous.bytes = .ok entry → BalanceAt previous entry (.error e) →
      AmountOf s b (.error e)

/-- The subtype of a block. -/
inductive SubtypeOf : Block → Option Subtype → Prop
  | legacy {b : Block} : b.type? ≠ some .state → SubtypeOf b none
  | opening {p : StatePayload} {s : StateSideband} : s.flags.isReceive = true → s.height = 1 →
      SubtypeOf (.state p s) (some .opening)
  | receive {p : StatePayload} {s : StateSideband} : s.flags.isReceive = true → s.height ≠ 1 →
      SubtypeOf (.state p s) (some .receive)
  | send {p : StatePayload} {s : StateSideband} : s.flags.isReceive = false →
      s.flags.isSend = true → SubtypeOf (.state p s) (some .send)
  | epoch {p : StatePayload} {s : StateSideband} : s.flags.isReceive = false →
      s.flags.isSend = false → s.flags.isEpoch = true → SubtypeOf (.state p s) (some .epoch)
  | change {p : StatePayload} {s : StateSideband} : s.flags.isReceive = false →
      s.flags.isSend = false → s.flags.isEpoch = false → SubtypeOf (.state p s) (some .change)

/-- The outcome of enriching a block. An opaque block fails before anything is looked up, and the
amount goes before the confirmation. -/
inductive Enriches (s : Store) (record : BlockRecord) : Except LedgerError EnrichedBlock → Prop
  | unknown {t : UInt8} {contents : Bytes} :
      record.block = .unsupported t contents → Enriches s record (.error (.unsupported t))
  | noAmount {e : LedgerError} : AmountOf s record.block (.error e) → Enriches s record (.error e)
  | noHeight {amount : Balance} {owner : Account} {entry : Option Bytes} {e : LedgerError} :
      AmountOf s record.block (.ok amount) → record.block.account = .ok owner →
      s.get .confirmationHeight owner.key.bytes = .ok entry → HeightAt owner entry (.error e) →
      Enriches s record (.error e)
  | enriched {b : EnrichedBlock} {height : UInt64} {owner : Account} {entry : Option Bytes}
      {recorded : Nat} :
      b.hash = record.hash → b.block = record.block → record.block.fields = .ok b.fields →
      AmountOf s record.block (.ok b.amount) → record.block.account = .ok owner →
      s.get .confirmationHeight owner.key.bytes = .ok entry → HeightAt owner entry (.ok recorded) →
      record.block.height = .ok height → (b.confirmed = true ↔ height.toNat ≤ recorded) →
      SubtypeOf record.block b.subtype → Enriches s record (.ok b)

/-! ## The common fields -/

namespace Block

variable {b : Block} {fields : BlockFields} {balance : Balance}

theorem balance_eq_ok : b.balance = .ok balance ↔ b.Keeps balance := by
  constructor
  · intro h
    cases b with
    | unsupported t contents => cases h
    | send | receive | opening | change | state =>
      cases h
      constructor
  · intro h
    cases h <;> rfl

theorem Keeps.unique {balance' : Balance} (h : b.Keeps balance) (h' : b.Keeps balance') :
    balance = balance' :=
  Except.ok.inj ((balance_eq_ok.2 h).symm.trans (balance_eq_ok.2 h'))

theorem Keeps.type?_ne_none (h : b.Keeps balance) : b.type? ≠ none := by
  cases h <;> exact Option.some_ne_none _

/-- The common fields of a block say what is said of each of them alone. -/
theorem of_fields (h : b.fields = .ok fields) :
    b.height = .ok fields.height ∧ b.Keeps fields.balance ∧
      b.previous = .ok fields.previous ∧ b.account = .ok fields.account := by
  rw [← balance_eq_ok]
  cases b with
  | unsupported t contents => cases h
  | send | receive | opening | change | state =>
    cases h
    exact ⟨rfl, rfl, rfl, rfl⟩

/-- A block has common fields unless it is opaque. -/
theorem fields_cases (b : Block) :
    (∃ fields, b.fields = .ok fields) ∨ ∃ t contents, b = unsupported t contents := by
  cases b with
  | unsupported t contents => exact .inr ⟨t, contents, rfl⟩
  | send | receive | opening | change | state => exact .inl ⟨_, rfl⟩

end Block

/-! ## Single entries -/

section

variable {s : Store}

/-- The balance that an entry tells is the one that is computed. -/
theorem BalanceAt.eq {hash : BlockHash} {entry : Option Bytes} {r : Except LedgerError Balance}
    (h : BalanceAt hash entry r) (hget : s.get .blocks hash.bytes = .ok entry) :
    s.predecessorBalance hash = r := by
  rw [Store.predecessorBalance, hget]
  cases h with
  | absent => rfl
  | short hshort =>
    have hdecode := (Block.decode_eq_error _ _).2 ⟨hshort, rfl⟩
    simp only [bind, Except.bind, hdecode]
    rfl
  | @unknown t contents ht =>
    have hdecode := (Block.decode_eq_unsupported t contents _).2 ⟨rfl, ht⟩
    simp only [bind, Except.bind, hdecode]
    rfl
  | stored rest hkeeps =>
    have hdecode := (Block.decode_eq_ok hkeeps.type?_ne_none _).2 (List.prefix_append _ rest)
    simp only [bind, Except.bind, hdecode, Block.balance_eq_ok.2 hkeeps]
    rfl

/-- Every entry of the table `blocks` tells something. -/
theorem exists_balanceAt (hash : BlockHash) (entry : Option Bytes) :
    ∃ r, BalanceAt hash entry r := by
  cases entry with
  | none => exact ⟨_, .absent⟩
  | some value =>
    cases hvalue : Block.decode value with
    | error e => exact ⟨_, .short ((Block.decode_eq_error value e).1 hvalue).1⟩
    | ok b =>
      cases hbalance : b.balance with
      | ok balance =>
        have hkeeps := Block.balance_eq_ok.1 hbalance
        obtain ⟨rest, rfl⟩ := (Block.decode_eq_ok hkeeps.type?_ne_none value).1 hvalue
        exact ⟨_, .stored rest hkeeps⟩
      | error e =>
        cases b with
        | unsupported t contents =>
          obtain ⟨rfl, ht⟩ := (Block.decode_eq_unsupported t contents value).1 hvalue
          exact ⟨_, .unknown ht⟩
        | send | receive | opening | change | state => cases hbalance

/-- The value of a confirmation height, byte by byte. -/
theorem ConfirmationHeight.writeValue_schema (c : ConfirmationHeight) :
    schema.writeValue c = littleEndian.spell 8 c.height.toNat ++ c.frontier.bytes := by
  rw [Schema.writeValue, schema, Layout.write_pair, Layout.write_word64, encode_eq_spell,
    Identifier.write_layout]

theorem ConfirmationHeight.decode_spelled (owner : Account) (height : UInt64) (frontier : BlockHash)
    (rest : Bytes) :
    decode owner.key.bytes (littleEndian.spell 8 height.toNat ++ frontier.bytes ++ rest) =
      .ok ⟨owner, height, frontier⟩ := by
  have h := schema.decode_append (a := ⟨owner, height, frontier⟩) rfl [] rest
  rwa [writeValue_schema, List.append_nil] at h

/-- Only the length of a value keeps it from being read under an account. -/
theorem ConfirmationHeight.decode_account_eq_error (a : Account) (value : Bytes) (e : LedgerError) :
    decode a.key.bytes value = .error e ↔ value.length < 40 ∧ e = .truncated := by
  have hkey : ¬ a.key.bytes.length < schema.key.size :=
    Nat.not_lt.2 (Nat.le_of_eq a.key.length_eq.symm)
  rw [decode, schema.decode_eq_error, or_iff_right hkey]
  rfl

/-- The height that an entry tells is the one with which a block is compared. -/
theorem HeightAt.eq {fields : BlockFields} {entry : Option Bytes} {r : Except LedgerError Nat}
    (h : HeightAt fields.account entry r)
    (hget : s.get .confirmationHeight fields.account.key.bytes = .ok entry) :
    s.confirmed fields = r.map fun recorded => decide (fields.height.toNat ≤ recorded) := by
  rw [Store.confirmed, Store.confirmationHeight, hget]
  cases h with
  | absent => rfl
  | short hshort =>
    have hdecode := (ConfirmationHeight.decode_account_eq_error fields.account _ _).2 ⟨hshort, rfl⟩
    simp only [bind, Except.bind, hdecode]
    rfl
  | recorded height frontier rest =>
    have hdecode := ConfirmationHeight.decode_spelled fields.account height frontier rest
    simp only [bind, Except.bind, hdecode]
    rfl

/-- A readable entry of the table `confirmation_height` tells its height. -/
theorem HeightAt.of_decode {owner : Account} {value : Bytes} {c : ConfirmationHeight}
    (h : ConfirmationHeight.decode owner.key.bytes value = .ok c) :
    HeightAt owner (some value) (.ok c.height.toNat) := by
  have hvalue := (ConfirmationHeight.schema.eq_encode_of_decode h).2
  rw [hvalue, ConfirmationHeight.writeValue_schema]
  exact .recorded _ _ _

/-- Every entry of the table `confirmation_height` tells something. -/
theorem exists_heightAt (owner : Account) (entry : Option Bytes) :
    ∃ r, HeightAt owner entry r := by
  cases entry with
  | none => exact ⟨_, .absent⟩
  | some value =>
    cases hvalue : ConfirmationHeight.decode owner.key.bytes value with
    | error e =>
      obtain ⟨hshort, -⟩ := (ConfirmationHeight.decode_account_eq_error owner value e).1 hvalue
      exact ⟨_, .short hshort⟩
    | ok c => exact ⟨_, .of_decode hvalue⟩

/-! ## Subtype, amount and outcome -/

/-- The subtype that the relation gives is the one that is computed. -/
theorem SubtypeOf.eq {b : Block} {t : Option Subtype} (h : SubtypeOf b t) :
    Subtype.ofBlock? b = t := by
  cases h with
  | legacy hb =>
    cases b with
    | state p s => exact absurd rfl hb
    | send | receive | opening | change | unsupported => rfl
  | opening hr h1 | receive hr h1 => simp [Subtype.ofBlock?, Subtype.ofFlags, hr, h1]
  | send hr hs => simp [Subtype.ofBlock?, Subtype.ofFlags, hr, hs]
  | epoch hr hs he | change hr hs he => simp [Subtype.ofBlock?, Subtype.ofFlags, hr, hs, he]

theorem subtypeOf_ofBlock? (b : Block) : SubtypeOf b (Subtype.ofBlock? b) := by
  suffices ∃ t, SubtypeOf b t by
    obtain ⟨t, ht⟩ := this
    rwa [ht.eq]
  cases b with
  | send | receive | opening | change | unsupported => exact ⟨none, .legacy nofun⟩
  | state p s =>
    cases hr : s.flags.isReceive with
    | true =>
      by_cases h1 : s.height = 1
      · exact ⟨_, .opening hr h1⟩
      · exact ⟨_, .receive hr h1⟩
    | false =>
      cases hs : s.flags.isSend with
      | true => exact ⟨_, .send hr hs⟩
      | false =>
        cases he : s.flags.isEpoch with
        | true => exact ⟨_, .epoch hr hs he⟩
        | false => exact ⟨_, .change hr hs he⟩

/-- Below height two nothing is looked up for the amount. -/
theorem one_lt_iff (height : UInt64) : 1 < height ↔ 2 ≤ height.toNat := UInt64.lt_iff_toNat_lt

/-- An opaque block has no amount and does not fail to have one. -/
theorem AmountOf.supported {b : Block} {r : Except LedgerError Balance} (h : AmountOf s b r)
    {t : UInt8} {contents : Bytes} : b ≠ .unsupported t contents := by
  rintro rfl
  cases h with
  | all hh | distance hh | broken hh => cases hh

/-- The amount that the relation gives is the one that is computed. -/
theorem AmountOf.eq {b : Block} {fields : BlockFields} {r : Except LedgerError Balance}
    (h : AmountOf s b r) (hf : b.fields = .ok fields) : s.amount fields = r := by
  obtain ⟨hheight, hkeeps, hprevious, -⟩ := Block.of_fields hf
  rw [Store.amount]
  cases h with
  | all hh h1 hk =>
    cases hheight.symm.trans hh
    rw [if_neg (by rw [one_lt_iff]; omega), hkeeps.unique hk]
  | distance hh h2 hp hget hat hk hamount =>
    cases hheight.symm.trans hh
    cases hprevious.symm.trans hp
    rw [if_pos ((one_lt_iff _).2 h2), hat.eq hget, hkeeps.unique hk]
    refine congrArg Except.ok (Balance.toNat_inj ?_)
    rw [hamount, Balance.toNat_delta]
  | broken hh h2 hp hget hat =>
    cases hheight.symm.trans hh
    cases hprevious.symm.trans hp
    rw [if_pos ((one_lt_iff _).2 h2), hat.eq hget]
    rfl

/-- Where lookups are answered, a block that is not opaque has an amount or fails to have one. -/
theorem exists_amountOf (hs : s.Answers) {b : Block} {fields : BlockFields}
    (hf : b.fields = .ok fields) : ∃ r, AmountOf s b r := by
  obtain ⟨hheight, hkeeps, hprevious, -⟩ := Block.of_fields hf
  by_cases h1 : fields.height.toNat ≤ 1
  · exact ⟨_, .all hheight h1 hkeeps⟩
  · have h2 : 2 ≤ fields.height.toNat := by omega
    obtain ⟨entry, hget⟩ := hs .blocks fields.previous.bytes
    obtain ⟨r, hat⟩ := exists_balanceAt fields.previous entry
    cases r with
    | error e => exact ⟨_, .broken hheight h2 hprevious hget hat⟩
    | ok before =>
      exact ⟨_, .distance hheight h2 hprevious hget hat hkeeps (before.toNat_delta fields.balance)⟩

/-- The outcome that the relation gives is the one that is computed. -/
theorem Enriches.eq {record : BlockRecord} {outcome : Except LedgerError EnrichedBlock}
    (h : Enriches s record outcome) : s.enrich record = outcome := by
  obtain ⟨fields, hf⟩ | ⟨t, contents, hb⟩ := record.block.fields_cases
  · rw [Store.enrich_of_fields hf]
    obtain ⟨hheight, -, -, haccount⟩ := Block.of_fields hf
    cases h with
    | unknown hb =>
      rw [hb] at hf
      cases hf
    | noAmount hamount =>
      rw [hamount.eq hf]
      rfl
    | noHeight hamount howner hget hat =>
      cases haccount.symm.trans howner
      rw [hamount.eq hf, hat.eq hget]
      rfl
    | @enriched b height owner entry recorded hhash hblock hfields hamount howner hget hat hh
        hconfirmed hsubtype =>
      cases haccount.symm.trans howner
      cases hheight.symm.trans hh
      cases hf.symm.trans hfields
      have hdecide : decide (b.fields.height.toNat ≤ recorded) = b.confirmed :=
        Bool.eq_iff_iff.2 (decide_eq_true_iff.trans hconfirmed.symm)
      rw [hamount.eq hf, hat.eq hget, hsubtype.eq, ← hhash, ← hblock]
      simp only [bind, Except.bind, Except.map, hdecide]
      rfl
  · cases h with
    | unknown hb' =>
      rw [Store.enrich, hb']
      rfl
    | noAmount hamount => exact absurd hb hamount.supported
    | noHeight hamount => exact absurd hb hamount.supported
    | enriched _ _ _ hamount => exact absurd hb hamount.supported

/-- A block with an amount, whose owner's entry tells a height, is enriched with that amount. -/
theorem exists_enriched {record : BlockRecord} {fields : BlockFields} {amount : Balance}
    {entry : Option Bytes} {recorded : Nat} (hf : record.block.fields = .ok fields)
    (hamount : AmountOf s record.block (.ok amount))
    (hget : s.get .confirmationHeight fields.account.key.bytes = .ok entry)
    (hat : HeightAt fields.account entry (.ok recorded)) :
    ∃ b, Enriches s record (.ok b) ∧ b.fields = fields ∧ b.amount = amount := by
  obtain ⟨hheight, -, -, howner⟩ := Block.of_fields hf
  let b : EnrichedBlock :=
    { hash := record.hash, block := record.block, fields,
      subtype := Subtype.ofBlock? record.block, amount,
      confirmed := decide (fields.height.toNat ≤ recorded) }
  exact ⟨b, .enriched rfl rfl hf hamount howner hget hat hheight decide_eq_true_iff
    (subtypeOf_ofBlock? record.block), rfl, rfl⟩

/-- Where lookups are answered, every block has an outcome. -/
theorem exists_enriches (hs : s.Answers) (record : BlockRecord) :
    ∃ outcome, Enriches s record outcome := by
  obtain ⟨fields, hf⟩ | ⟨t, contents, hb⟩ := record.block.fields_cases
  · obtain ⟨-, -, -, howner⟩ := Block.of_fields hf
    obtain ⟨r, hamount⟩ := exists_amountOf hs hf
    cases r with
    | error e => exact ⟨_, .noAmount hamount⟩
    | ok amount =>
      obtain ⟨entry, hget⟩ := hs .confirmationHeight fields.account.key.bytes
      obtain ⟨r, hat⟩ := exists_heightAt fields.account entry
      cases r with
      | error e => exact ⟨_, .noHeight hamount howner hget hat⟩
      | ok recorded =>
        obtain ⟨b, hb, -, -⟩ := exists_enriched hf hamount hget hat
        exact ⟨.ok b, hb⟩
  · exact ⟨_, .unknown hb⟩

/-! ## Enrichment as a whole -/

theorem BalanceAt.brokenChain {hash : BlockHash} {entry : Option Bytes} {e : LedgerError}
    (h : BalanceAt hash entry (.error e)) : ∃ context, e = .brokenChain context := by
  cases h with
  | absent | short | unknown => exact ⟨_, rfl⟩

theorem HeightAt.brokenChain {owner : Account} {entry : Option Bytes} {e : LedgerError}
    (h : HeightAt owner entry (.error e)) : ∃ context, e = .brokenChain context := by
  cases h with
  | short => exact ⟨_, rfl⟩

/-- The first block of a chain brings all of its balance. -/
theorem AmountOf.eq_balance {b : Block} {height : UInt64} {balance amount : Balance}
    (h : AmountOf s b (.ok amount)) (hheight : b.height = .ok height) (h1 : height.toNat ≤ 1)
    (hkeeps : b.Keeps balance) : amount = balance := by
  cases h with
  | all hh hle hk => exact hk.unique hkeeps
  | distance hh h2 =>
    cases hheight.symm.trans hh
    omega

theorem Enriches.brokenChain {record : BlockRecord} {e : LedgerError}
    (h : Enriches s record (.error e)) :
    (∃ t contents, record.block = .unsupported t contents ∧ e = .unsupported t) ∨
      ∃ context, e = .brokenChain context := by
  cases h with
  | unknown hb => exact .inl ⟨_, _, hb, rfl⟩
  | noAmount hamount =>
    cases hamount with
    | broken _ _ _ _ hat => exact .inr hat.brokenChain
  | noHeight _ _ _ hat => exact .inr hat.brokenChain

theorem Enriches.opening {record : BlockRecord} {b : EnrichedBlock}
    (h : Enriches s record (.ok b)) (hsubtype : b.subtype = some .opening) :
    b.fields.height = 1 ∧ b.amount = b.fields.balance := by
  cases h with
  | enriched _ _ hf hamount _ _ _ _ _ hsub =>
    rw [hsubtype] at hsub
    obtain ⟨hheight, hkeeps, -, -⟩ := Block.of_fields hf
    generalize record.block = block at *
    cases hsub with
    | opening _ h1 =>
      have hone : b.fields.height = 1 := (Except.ok.inj hheight).symm.trans h1
      exact ⟨hone, hamount.eq_balance hheight (by rw [hone]; decide) hkeeps⟩

namespace Store

/-- What enriching a block comes to, where lookups are answered: exactly what the relation says. An
opening block is the first one of its chain and its amount is all of its balance; whatever fails is
an opaque block or a broken reference. -/
theorem enrich_iff (hs : s.Answers) (record : BlockRecord) :
    (∀ outcome, s.enrich record = outcome ↔ Enriches s record outcome) ∧
    (∀ b, s.enrich record = .ok b → b.subtype = some .opening →
      b.fields.height = 1 ∧ b.amount = b.fields.balance) ∧
    (∀ e, s.enrich record = .error e →
      (∃ t contents, record.block = .unsupported t contents ∧ e = .unsupported t) ∨
        ∃ context, e = .brokenChain context) := by
  obtain ⟨outcome, houtcome⟩ := exists_enriches hs record
  have hiff : ∀ outcome, s.enrich record = outcome ↔ Enriches s record outcome := by
    intro r
    constructor
    · rintro rfl
      rwa [houtcome.eq]
    · exact Enriches.eq
  refine ⟨hiff, ?_, ?_⟩
  · intro b hb
    exact ((hiff _).1 hb).opening
  · intro e he
    exact ((hiff _).1 he).brokenChain

/-- In an empty ledger a block at height two lacks its predecessor, and one at height one brings its
balance. -/
theorem enrich_iff_zerosAt :
    Tables.empty.store.Answers ∧
      Tables.empty.store.enrich ⟨.zero .blockHash, .zerosAt 2⟩ = .error (.brokenChain
        ("predecessor " ++ (Identifier.zero .blockHash).text ++ " not found")) ∧
      ∃ b, Tables.empty.store.enrich ⟨.zero .blockHash, .zerosAt 1⟩ = .ok b ∧
        b.amount.toNat = 5 ∧ b.confirmed = false ∧ b.subtype = some .send := by
  have hs : Tables.empty.store.Answers := fun t key => ⟨_, rfl⟩
  have hbroken : Enriches Tables.empty.store ⟨.zero .blockHash, .zerosAt 2⟩ _ :=
    .noAmount (.broken rfl (by decide) rfl rfl .absent)
  have hamount : AmountOf Tables.empty.store (.zerosAt 1) _ := .all rfl (by decide) (.state _ _)
  obtain ⟨fields, hfirst⟩ : ∃ fields, Enriches Tables.empty.store ⟨.zero .blockHash, .zerosAt 1⟩
      (.ok ⟨.zero .blockHash, .zerosAt 1, fields, some .send, ⟨⟨5, by decide⟩⟩, false⟩) :=
    ⟨_, .enriched rfl rfl rfl hamount rfl rfl .absent rfl (by decide) (.send rfl rfl)⟩
  exact ⟨hs, ((enrich_iff hs _).1 _).2 hbroken, _, ((enrich_iff hs _).1 _).2 hfirst, rfl, rfl, rfl⟩

/-- A block of an account of which no confirmation is recorded is taken for confirmed at height zero
and nowhere else: an absent record counts as a recorded height of zero. -/
theorem enrich_unrecorded {record : BlockRecord} {owner : Account} {height : UInt64}
    {b : EnrichedBlock} (howner : record.block.account = .ok owner)
    (hheight : record.block.height = .ok height)
    (hget : s.get .confirmationHeight owner.key.bytes = .ok none) (hb : s.enrich record = .ok b) :
    b.confirmed = decide (height = 0) ∧ b.normalize.confirmed = decide (height = 0) := by
  suffices b.confirmed = decide (height = 0) from ⟨this, this⟩
  obtain ⟨fields, hf⟩ | ⟨t, contents, hunknown⟩ := record.block.fields_cases
  · obtain ⟨hheight', -, -, howner'⟩ := Block.of_fields hf
    cases hheight'.symm.trans hheight
    cases howner'.symm.trans howner
    have hconfirmed := HeightAt.absent.eq hget
    rw [enrich_of_fields hf, hconfirmed] at hb
    have hzero : decide (fields.height.toNat ≤ 0) = decide (fields.height = 0) := by
      rw [decide_eq_decide, Nat.le_zero, ← UInt64.toNat_inj]
      rfl
    cases hamount : s.amount fields with
    | error e =>
      rw [hamount] at hb
      cases hb
    | ok amount =>
      rw [hamount] at hb
      cases hb
      exact hzero
  · rw [hunknown] at howner
    cases howner

/-- A block at height one of an empty ledger. -/
theorem enrich_unrecorded_zerosAt_one :
    ∃ b, Tables.empty.store.enrich ⟨.zero .blockHash, .zerosAt 1⟩ = .ok b ∧
      b.confirmed = false ∧ b.normalize.confirmed = false := by
  obtain ⟨b, hb⟩ : ∃ b, Tables.empty.store.enrich ⟨.zero .blockHash, .zerosAt 1⟩ = .ok b :=
    ⟨_, rfl⟩
  have howner : (Block.zerosAt 1).account = .ok ⟨.zero 32⟩ := rfl
  have hheight : (Block.zerosAt 1).height = .ok 1 := rfl
  have h := enrich_unrecorded howner hheight rfl hb
  exact ⟨b, hb, h.1.trans (by decide), h.2.trans (by decide)⟩

/-- A block at height zero of an empty ledger is taken for confirmed. -/
theorem enrich_confirms_zerosAt_zero :
    Tables.empty.store.get .confirmationHeight (List.replicate 32 0) = .ok none ∧
      (Block.zerosAt 0).account = .ok ⟨.zero 32⟩ ∧
      ∃ b, Tables.empty.store.enrich ⟨.zero .blockHash, .zerosAt 0⟩ = .ok b ∧
        b.confirmed = true ∧ b.normalize.confirmed = true :=
  ⟨rfl, rfl, _, rfl, rfl, rfl⟩

end Store

end

end NanoLedger
