import Mathlib.Algebra.Ring.Int.Defs
import NanoLedger.Proofs.Enriching
import NanoLedger.Store.Tables

/-!
# Amounts along a chain

The blocks of an account form a chain (`Store.Chain`): the first one stands at height one, every
other one a step above the block that it names as its predecessor. Enriching looks up no more than
that predecessor, so the amount of each block is how far its balance lies from that of the block
before it (`Store.Follow.enrich`), and amounts that count as positive where the balance did not
shrink and as negative where it did add up to the balances, block by block (`Moves.sum_take`). Both
are inductions from the first block on; `Store.enrich_chain` puts them together.
-/

namespace NanoLedger

/-! ## Chains -/

namespace Store

/-- Whether enrichment finds a block and the confirmation of its owner, if there is one: the block
is of a known kind and stored under its hash. -/
structure Holds (s : Store) (r : BlockRecord) : Prop where
  known : r.block.type? ≠ none
  stored : ∃ value, s.get .blocks r.hash.bytes = .ok (some value) ∧ Block.decode value = .ok r.block
  readable : ∀ owner, r.block.account = .ok owner →
    s.get .confirmationHeight owner.key.bytes = .ok none ∨
      ∃ value c, s.get .confirmationHeight owner.key.bytes = .ok (some value) ∧
        ConfirmationHeight.decode owner.key.bytes value = .ok c

/-- Blocks behind a block at height `n`, each a step above the one before it, which it names. -/
inductive Follow (s : Store) : BlockRecord → Nat → List BlockRecord → Prop
  | nil {r : BlockRecord} {n : Nat} : Follow s r n []
  | cons {r r' : BlockRecord} {n : Nat} {height : UInt64} {rs : List BlockRecord} :
      s.Holds r' → r'.block.height = .ok height → height.toNat = n + 1 →
      r'.block.previous = .ok r.hash → Follow s r' (n + 1) rs → Follow s r n (r' :: rs)

/-- The blocks of a chain, the first of them at height one. -/
inductive Chain (s : Store) : List BlockRecord → Prop
  | mk {r : BlockRecord} {height : UInt64} {rs : List BlockRecord} :
      s.Holds r → r.block.height = .ok height → height.toNat = 1 → s.Follow r 1 rs →
      Chain s (r :: rs)

end Store

/-! ## Signed amounts -/

/-- The amount of a block behind a given balance: positive unless the balance has shrunk. -/
def EnrichedBlock.signedAmount (before : Balance) (b : EnrichedBlock) : Int :=
  if before.toNat ≤ b.fields.balance.toNat then b.amount.toNat else -b.amount.toNat

/-- The signed amounts of blocks that stand behind a given balance, one behind the other. -/
def signedBehind (before : Balance) : List EnrichedBlock → List Int
  | [] => []
  | b :: bs => b.signedAmount before :: signedBehind b.fields.balance bs

/-- The signed amounts of the blocks of a chain. That of the first block is positive. -/
def signedAmounts : List EnrichedBlock → List Int
  | [] => []
  | b :: bs => b.amount.toNat :: signedBehind b.fields.balance bs

/-- Blocks behind a given balance, each with the distance from the balance before it as amount. -/
inductive Moves : Balance → List EnrichedBlock → Prop
  | nil {before : Balance} : Moves before []
  | cons {before : Balance} {b : EnrichedBlock} {bs : List EnrichedBlock} :
      b.amount.toNat = ((before.toNat : Int) - b.fields.balance.toNat).natAbs →
      Moves b.fields.balance bs → Moves before (b :: bs)

theorem length_signedBehind (before : Balance) (bs : List EnrichedBlock) :
    (signedBehind before bs).length = bs.length := by
  induction bs generalizing before with
  | nil => rfl
  | cons b bs ih => rw [signedBehind, List.length_cons, ih, List.length_cons]

theorem length_signedAmounts (bs : List EnrichedBlock) : (signedAmounts bs).length = bs.length := by
  cases bs with
  | nil => rfl
  | cons b bs => rw [signedAmounts, List.length_cons, length_signedBehind, List.length_cons]

/-- A distance leads from one balance to the other, with the right sign. -/
theorem EnrichedBlock.add_signedAmount {before : Balance} {b : EnrichedBlock}
    (h : b.amount.toNat = ((before.toNat : Int) - b.fields.balance.toNat).natAbs) :
    before.toNat + b.signedAmount before = b.fields.balance.toNat := by
  rw [signedAmount]
  split <;> omega

/-- Distances, signed, lead from a balance to each of those behind it. -/
theorem Moves.sum_take {before : Balance} {bs : List EnrichedBlock} (h : Moves before bs) (i : Nat)
    (hi : i < bs.length) :
    before.toNat + ((signedBehind before bs).take (i + 1)).sum = bs[i].fields.balance.toNat := by
  induction h generalizing i with
  | nil => cases hi
  | @cons before b bs hamount _ ih =>
    have hstep := EnrichedBlock.add_signedAmount hamount
    rw [signedBehind, List.take_succ_cons, List.sum_cons, ← Int.add_assoc, hstep]
    cases i with
    | zero => exact Int.add_zero _
    | succ i => exact ih i (Nat.lt_of_succ_lt_succ hi)

/-! ## Enriching a chain -/

namespace Store

section

variable {s : Store} {r : BlockRecord}

theorem Holds.exists_keeps (h : s.Holds r) : ∃ balance, r.block.Keeps balance := by
  obtain ⟨fields, hf⟩ | ⟨t, contents, hb⟩ := r.block.fields_cases
  · exact ⟨_, (Block.of_fields hf).2.1⟩
  · exact absurd (by rw [hb]; rfl) h.known

/-- A block that is held tells its balance to the one behind it. -/
theorem Holds.balanceAt (h : s.Holds r) {balance : Balance} (hkeeps : r.block.Keeps balance) :
    ∃ entry, s.get .blocks r.hash.bytes = .ok entry ∧ BalanceAt r.hash entry (.ok balance) := by
  obtain ⟨value, hget, hdecode⟩ := h.stored
  obtain ⟨rest, rfl⟩ := (Block.decode_eq_ok h.known value).1 hdecode
  exact ⟨_, hget, .stored rest hkeeps⟩

/-- The confirmation of the owner of a block that is held tells a height. -/
theorem Holds.heightAt (h : s.Holds r) {owner : Account} (howner : r.block.account = .ok owner) :
    ∃ entry recorded, s.get .confirmationHeight owner.key.bytes = .ok entry ∧
      HeightAt owner entry (.ok recorded) := by
  obtain hget | ⟨value, c, hget, hdecode⟩ := h.readable owner howner
  · exact ⟨_, _, hget, .absent⟩
  · exact ⟨_, _, hget, .of_decode hdecode⟩

/-- A block that is held and has an amount is enriched. -/
theorem Holds.enrich (h : s.Holds r) {amount : Balance}
    (hamount : AmountOf s r.block (.ok amount)) :
    ∃ b, s.enrich r = .ok b ∧ b.amount = amount ∧ r.block.Keeps b.fields.balance := by
  obtain ⟨fields, hf⟩ | ⟨t, contents, hb⟩ := r.block.fields_cases
  · obtain ⟨-, hkeeps, -, howner⟩ := Block.of_fields hf
    obtain ⟨entry, recorded, hget, hat⟩ := h.heightAt howner
    obtain ⟨b, hb, rfl, hamount'⟩ := exists_enriched hf hamount hget hat
    exact ⟨b, hb.eq, hamount', hkeeps⟩
  · exact absurd hb hamount.supported

/-- The first block of a chain brings all of its balance. -/
theorem Holds.enrich_first (h : s.Holds r) {height : UInt64} (hheight : r.block.height = .ok height)
    (hone : height.toNat = 1) :
    ∃ b, s.enrich r = .ok b ∧ b.amount = b.fields.balance ∧ r.block.Keeps b.fields.balance := by
  obtain ⟨balance, hkeeps⟩ := h.exists_keeps
  obtain ⟨b, hb, hamount, hkeeps'⟩ := h.enrich (.all hheight (by omega) hkeeps)
  exact ⟨b, hb, hamount.trans (hkeeps.unique hkeeps'), hkeeps'⟩

/-- A block brings the distance from the balance of the block that it names. -/
theorem Holds.enrich_next {r' : BlockRecord} (h' : s.Holds r') (h : s.Holds r) {before : Balance}
    (hbefore : r.block.Keeps before) {height : UInt64} (hheight : r'.block.height = .ok height)
    (htwo : 2 ≤ height.toNat) (hprevious : r'.block.previous = .ok r.hash) :
    ∃ b, s.enrich r' = .ok b ∧ r'.block.Keeps b.fields.balance ∧
      b.amount.toNat = ((before.toNat : Int) - b.fields.balance.toNat).natAbs := by
  obtain ⟨balance, hkeeps⟩ := h'.exists_keeps
  obtain ⟨entry, hget, hat⟩ := h.balanceAt hbefore
  obtain ⟨b, hb, hamount, hkeeps'⟩ :=
    h'.enrich (.distance hheight htwo hprevious hget hat hkeeps (before.toNat_delta balance))
  refine ⟨b, hb, hkeeps', ?_⟩
  rw [hamount, before.toNat_delta, hkeeps.unique hkeeps']

/-- Blocks that follow each other are enriched, each with the distance from the balance before it.
The induction takes from each block only that it is held and what its balance is. -/
theorem Follow.enrich {n : Nat} {rs : List BlockRecord} (h : s.Follow r n rs) (hn : 1 ≤ n)
    (hr : s.Holds r) {before : Balance} (hbefore : r.block.Keeps before) :
    ∃ bs, rs.map s.enrich = bs.map .ok ∧
      rs.map (·.block.balance) = bs.map (fun b => .ok b.fields.balance) ∧ Moves before bs := by
  induction h generalizing before with
  | nil => exact ⟨[], rfl, rfl, .nil⟩
  | cons hr' hheight hstep hprevious _ ih =>
    obtain ⟨b, hb, hkeeps, hamount⟩ :=
      hr'.enrich_next hr hbefore hheight (by omega) hprevious
    obtain ⟨bs, hbs, hbalances, hmoves⟩ := ih (by omega) hr' hkeeps
    refine ⟨b :: bs, ?_, ?_, .cons hamount hmoves⟩
    · rw [List.map_cons, List.map_cons, hb, hbs]
    · rw [List.map_cons, List.map_cons, Block.balance_eq_ok.2 hkeeps, hbalances]

/-- Amounts account for balances. Every block of a chain is enriched; the balances are those of the
blocks; and up to each block the signed amounts add up to its balance, those of all blocks to the
balance of the last one. -/
theorem enrich_chain {rs : List BlockRecord} (h : s.Chain rs) :
    ∃ bs, rs.map s.enrich = bs.map .ok ∧
      rs.map (·.block.balance) = bs.map (fun b => .ok b.fields.balance) ∧
      (∀ (i : Nat) (hi : i < bs.length),
        ((signedAmounts bs).take (i + 1)).sum = bs[i].fields.balance.toNat) ∧
      ∃ last, bs.getLast? = some last ∧ (signedAmounts bs).sum = last.fields.balance.toNat := by
  obtain ⟨hr, hheight, hone, hfollow⟩ := h
  obtain ⟨b, hb, hamount, hkeeps⟩ := hr.enrich_first hheight hone
  obtain ⟨bs, hbs, hbalances, hmoves⟩ := hfollow.enrich (Nat.le_refl 1) hr hkeeps
  have hpartial : ∀ (i : Nat) (hi : i < (b :: bs).length),
      ((signedAmounts (b :: bs)).take (i + 1)).sum = (b :: bs)[i].fields.balance.toNat := by
    intro i hi
    rw [signedAmounts, List.take_succ_cons, List.sum_cons, hamount]
    cases i with
    | zero => exact Int.add_zero _
    | succ i => exact hmoves.sum_take i (Nat.lt_of_succ_lt_succ hi)
  have hne : b :: bs ≠ [] := List.cons_ne_nil b bs
  refine ⟨b :: bs, ?_, ?_, hpartial, _, List.getLast?_eq_some_getLast hne, ?_⟩
  · rw [List.map_cons, List.map_cons, hb, hbs]
  · rw [List.map_cons, List.map_cons, Block.balance_eq_ok.2 hkeeps, hbalances]
  · have hlength : (signedAmounts (b :: bs)).length = bs.length + 1 :=
      length_signedAmounts (b :: bs)
    have htotal := hpartial bs.length (Nat.lt_succ_self bs.length)
    rw [← hlength, List.take_length] at htotal
    rw [List.getLast_eq_getElem, htotal]
    rfl

end

/-- A hash of ones. -/
def hashOfOnes : BlockHash := ⟨⟨List.replicate 32 1, rfl⟩⟩

/-- A send block at height two that leaves a balance of three. -/
def sendAtTwo : Block :=
  .send
    { previous := .zero .blockHash, destination := ⟨.zero 32⟩, balance := ⟨⟨3, by decide⟩⟩,
      signature := .zero .signature, work := ⟨1⟩ }
    { successor := .zero .blockHash, account := ⟨.zero 32⟩, height := 2, timestamp := 8 }

/-- A ledger of a state block with balance five, and the send block behind it. -/
def twoBlocks : Tables :=
  (Tables.empty.insert .blocks (Identifier.zero .blockHash).bytes (Block.zerosAt 1).stored).insert
    .blocks hashOfOnes.bytes sendAtTwo.stored

theorem chain_twoBlocks :
    twoBlocks.store.Chain [⟨.zero .blockHash, .zerosAt 1⟩, ⟨hashOfOnes, sendAtTwo⟩] := by
  have hfirst : twoBlocks.store.get .blocks (Identifier.zero .blockHash).bytes =
      .ok (some (Block.zerosAt 1).stored) := by
    rw [Tables.get_store, twoBlocks, Tables.find?_insert, if_neg (by decide), Tables.find?_insert,
      if_pos ⟨rfl, rfl⟩]
  have hsecond : twoBlocks.store.get .blocks hashOfOnes.bytes = .ok (some sendAtTwo.stored) := by
    rw [Tables.get_store, twoBlocks, Tables.find?_insert, if_pos ⟨rfl, rfl⟩]
  have hheight : ∀ key, twoBlocks.store.get .confirmationHeight key = .ok none := by
    intro key
    rw [Tables.get_store, twoBlocks, Tables.find?_insert, if_neg nofun, Tables.find?_insert,
      if_neg nofun]
    rfl
  have hstored : ∀ b : Block, b.type? ≠ none → Block.decode b.stored = .ok b := fun b hb =>
    (Block.decode_eq_ok hb _).2 List.prefix_rfl
  have hr : twoBlocks.store.Holds ⟨.zero .blockHash, .zerosAt 1⟩ :=
    ⟨nofun, ⟨_, hfirst, hstored _ nofun⟩, fun owner _ => .inl (hheight _)⟩
  have hr' : twoBlocks.store.Holds ⟨hashOfOnes, sendAtTwo⟩ :=
    ⟨nofun, ⟨_, hsecond, hstored _ nofun⟩, fun owner _ => .inl (hheight _)⟩
  exact .mk hr rfl rfl (.cons hr' rfl rfl rfl .nil)

/-- The first block brings five, and three are left when the second one has sent its amount. -/
theorem enrich_chain_twoBlocks :
    twoBlocks.store.Chain [⟨.zero .blockHash, .zerosAt 1⟩, ⟨hashOfOnes, sendAtTwo⟩] ∧
      ∃ first second, twoBlocks.store.enrich ⟨.zero .blockHash, .zerosAt 1⟩ = .ok first ∧
        twoBlocks.store.enrich ⟨hashOfOnes, sendAtTwo⟩ = .ok second ∧
        ((signedAmounts [first, second]).take 1).sum = 5 ∧
        (signedAmounts [first, second]).sum = 3 := by
  obtain ⟨bs, hbs, hbalances, hpartial, last, hlast, htotal⟩ := enrich_chain chain_twoBlocks
  obtain ⟨first, rest, rfl, hfirst, hrest⟩ := List.map_eq_cons_iff.1 hbs.symm
  obtain ⟨second, rest, rfl, hsecond, hnil⟩ := List.map_eq_cons_iff.1 hrest
  cases List.map_eq_nil_iff.1 hnil
  obtain ⟨hfive, hbalances⟩ := List.cons.inj hbalances
  obtain ⟨hthree, -⟩ := List.cons.inj hbalances
  cases hlast
  refine ⟨chain_twoBlocks, first, second, hfirst.symm, hsecond.symm, ?_, ?_⟩
  · rw [hpartial 0 (Nat.zero_lt_succ 1)]
    exact congrArg (fun b : Balance => (b.toNat : Int)) (Except.ok.inj hfive).symm
  · rw [htotal]
    exact congrArg (fun b : Balance => (b.toNat : Int)) (Except.ok.inj hthree).symm

end Store

end NanoLedger
