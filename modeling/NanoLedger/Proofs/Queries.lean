import NanoLedger.Proofs.Sharding
import NanoLedger.Proofs.Visits

/-!
# Queries and passes

A query for a single record and a pass reach an entry by different ways through the store. They make
the same of it: the query fails with `Cause.keyNotFound` exactly if its table has no such key, and
else its outcome is the item that a pass gives for the key (`Ledger.getRecord_eq`).

Some kinds of records are conversions of others. Reading the converted kind converts what is read
(`RecordKind.Converts`), and as a conversion never fails this goes on through `draw`, `next` and a
whole run: the pass gives the converted items, passes over the same entries for the same reasons,
and reports the same counts (`Pass.run_map`).
-/

namespace NanoLedger

variable {α β : Type}

/-! ## Conversions of passes -/

/-- The item of a key and of what reading its entry gave. -/
def Item.ofResult (key : Bytes) : Except LedgerError α → Item α
  | .ok r => .record r
  | .error e => .failure ⟨key, e⟩

theorem Item.ofEntry_eq (read : Entry → Except LedgerError α) (e : Entry) :
    Item.ofEntry read e = .ofResult e.key (read e) := by
  cases h : read e <;> rw [Item.ofEntry, h] <;> rfl

/-- Convert the record of an item. -/
def Item.map (f : α → β) : Item α → Item β
  | record r => .record (f r)
  | failure x => .failure x

namespace Pass

/-- The pass that converts each record once it is read. -/
def map (f : α → β) (p : Pass α) : Pass β where
  table := p.table
  read e := (p.read e).map f
  rest := p.rest
  bound := p.bound
  remaining := p.remaining
  counts := p.counts
  progress := p.progress

end Pass

/-- Convert what comes of drawing an entry. -/
def Draw.map (f : α → β) : Draw α → Draw β
  | ended p => .ended (p.map f)
  | skipped x p => .skipped x (p.map f)
  | ready r p => .ready (f r) (p.map f)

namespace Pass

@[simp] theorem rest_map (f : α → β) (p : Pass α) : (p.map f).rest = p.rest := rfl

@[simp] theorem read_map (f : α → β) (p : Pass α) (e : Entry) :
    (p.map f).read e = (p.read e).map f := rfl

@[simp] theorem reaches_map (f : α → β) (p : Pass α) (key : Bytes) :
    (p.map f).reaches key = p.reaches key := rfl

/-- Drawing an entry for a converted pass converts the record after it is made, so the pass ends or
passes over the entry whenever the pass itself does. -/
theorem draw_map (f : α → β) (p : Pass α) (budgetLeft : Bool) :
    (p.map f).draw budgetLeft = (p.draw budgetLeft).map f := by
  -- The condition of the converted pass is stated for itself: rewritten to that of the pass, it would
  -- keep its own instance of decidability.
  by_cases hover : p.progress ≠ .running ∨ p.remaining = some 0
  · have hover' : (p.map f).progress ≠ .running ∨ (p.map f).remaining = some 0 := hover
    rw [draw, if_pos hover', draw, if_pos hover]
    rfl
  have hover' : ¬ ((p.map f).progress ≠ .running ∨ (p.map f).remaining = some 0) := hover
  rw [draw, if_neg hover', draw, if_neg hover]
  cases budgetLeft with
  | false => rfl
  | true =>
    rw [if_neg (by simp), if_neg (by simp), rest_map]
    cases p.rest with
    | nil => rfl
    | cons x rest =>
      cases x with
      | error e => rfl
      | ok e =>
        simp only [reaches_map, read_map]
        by_cases hpast : p.reaches e.key
        · rw [if_pos hpast, if_pos hpast]
          rfl
        rw [if_neg hpast, if_neg hpast]
        cases p.read e with
        | ok r => rfl
        | error error =>
          simp only [Except.map]
          split <;> rfl

/-- A converted pass gives the converted item and goes on as the conversion of what is left. -/
theorem next_map (f : α → β) (p : Pass α) :
    (p.map f).next = (p.next.1.map (Item.map f), p.next.2.map f) := by
  rw [next, draw_map, next]
  cases p.draw true <;> rfl

/-- The items of a converted pass are the converted ones, and it ends as the pass itself. -/
theorem run_map (f : α → β) (p : Pass α) (n : Nat) :
    (p.map f).run n = ((p.run n).1.map (Option.map (Item.map f)), (p.run n).2.map f) := by
  induction n generalizing p with
  | zero => rfl
  | succ n ih => rw [run_succ, next_map, ih, run_succ]; rfl

/-- Whether a second pass is the conversion of a first one: both fail to begin with the same error,
or each number of calls of `next` gives the converted items, with the same counts and report. -/
def ConvertedBy (f : α → β) : Except LedgerError (Pass α) → Except LedgerError (Pass β) → Prop
  | .ok p, .ok q => ∀ n,
      (q.run n).1 = (p.run n).1.map (Option.map (Item.map f)) ∧
        (q.run n).2.counts = (p.run n).2.counts ∧ (q.run n).2.finish = (p.run n).2.finish
  | .error e, .error e' => e = e'
  | _, _ => False

theorem convertedBy_map (f : α → β) (x : Except LedgerError (Pass α)) :
    ConvertedBy f x (x.map (map f)) := by
  cases x with
  | error e => rfl
  | ok p =>
    intro n
    rw [run_map]
    exact ⟨rfl, rfl, rfl⟩

end Pass

/-! ## Conversions of kinds -/

/-- A kind whose records are conversions of those of another kind, entry by entry. -/
structure RecordKind.Converts (kind kind' : RecordKind) (f : kind.Record → kind'.Record) :
    Prop where
  table_eq : kind'.table = kind.table
  read_eq : ∀ s e, kind'.read s e = (kind.read s e).map f

namespace RecordKind

theorem converts_normalizedBlock :
    Converts .enrichedBlock .normalizedBlock EnrichedBlock.normalize :=
  ⟨rfl, fun s e => by simp only [read]; cases readEnrichedBlock s e <;> rfl⟩

theorem converts_normalizedAccount :
    Converts .enrichedAccount .normalizedAccount EnrichedAccount.normalize :=
  ⟨rfl, fun s e => by simp only [read]; cases readEnrichedAccount s e <;> rfl⟩

variable {kind kind' : RecordKind} {f : kind.Record → kind'.Record}

/-- A record of a converted kind that is read was converted. -/
theorem Converts.exists_read (h : Converts kind kind' f) {s : Store} {e : Entry}
    {r' : kind'.Record} (hread : kind'.read s e = .ok r') :
    ∃ r, kind.read s e = .ok r ∧ r' = f r := by
  rw [h.read_eq] at hread
  cases hr : kind.read s e with
  | error error =>
    rw [hr] at hread
    cases hread
  | ok r =>
    rw [hr] at hread
    cases hread
    exact ⟨r, rfl, rfl⟩

/-- A pass of a converted kind is the conversion of the pass of the other kind. -/
theorem Converts.start_eq (h : Converts kind kind' f) (s : Store) (options : PassOptions) :
    Pass.start kind' s options = (Pass.start kind s options).map (Pass.map f) := by
  have hread : kind'.read s = fun e => (kind.read s e).map f := funext (h.read_eq s)
  simp only [Pass.start, Pass.inRange, h.table_eq, hread]
  cases s.walk kind.table options.start with
  | error e => rfl
  | ok walk => cases options.start <;> cases walk <;> rfl

/-- A record of a converted kind is the conversion of the one of the other kind. -/
theorem Converts.getRecord_eq (h : Converts kind kind' f) (l : Ledger) (key : Bytes) :
    l.getRecord kind' key = (l.getRecord kind key).map f := by
  simp only [Ledger.getRecord, h.table_eq, h.read_eq]
  cases l.snapshot.get kind.table key with
  | error e => rfl
  | ok value => cases value <;> rfl

end RecordKind

/-! ## Queries -/

/-- Whether a table is missing or has no entry with exactly that key. -/
def Tables.Lacks (ts : Tables) (t : Table) (key : Bytes) : Prop :=
  ∀ m, ts.table? t = some m → ∀ e ∈ m.entries, e.key ≠ key

theorem Tables.lacks_iff {ts : Tables} {t : Table} {key : Bytes} :
    ts.Lacks t key ↔ ∀ value, ts.find? t key ≠ some value := by
  constructor
  · intro h value hvalue
    cases hm : ts.table? t with
    | none => simp [find?, hm] at hvalue
    | some m => exact h m hm ⟨key, value⟩ ((mem_entries hm _).2 hvalue) rfl
  · rintro h m hm e he rfl
    exact h e.value ((mem_entries hm e).1 he)

/-- A key that a table does not lack has a value there. -/
theorem Tables.exists_find? {ts : Tables} {t : Table} {key : Bytes} (h : ¬ ts.Lacks t key) :
    ∃ value, ts.find? t key = some value := by
  simpa [lacks_iff] using h

namespace Ledger

variable (l : Ledger) (kind : RecordKind) {key value : Bytes}

/-- A query for a key that a table has reads the entry of the key. -/
theorem getRecord_of_find? (hkey : key ≠ []) (h : l.tables.find? kind.table key = some value) :
    l.getRecord kind key = kind.read l.snapshot ⟨key, value⟩ := by
  rw [getRecord, l.serves_snapshot.get_eq _ _ hkey, h]
  rfl

/-- A query for a key that a table does not have. -/
theorem getRecord_of_lacks (hkey : key ≠ []) (h : l.tables.Lacks kind.table key) :
    l.getRecord kind key =
      .error { cause := .keyNotFound, context := kind.table.name ++ " " ++ Hex.encode key } := by
  have hnone := Option.eq_none_iff_forall_ne_some.2 (Tables.lacks_iff.1 h)
  rw [getRecord, l.serves_snapshot.get_eq _ _ hkey, hnone]
  rfl

/-- A query fails because its key is not found exactly if the table lacks the key. -/
theorem getRecord_keyNotFound (hkey : key ≠ []) :
    (∃ e, l.getRecord kind key = .error e ∧ e.cause = .keyNotFound) ↔
      l.tables.Lacks kind.table key := by
  constructor
  · rintro ⟨e, he, hcause⟩
    refine Tables.lacks_iff.2 fun value hvalue => ?_
    rw [l.getRecord_of_find? kind hkey hvalue] at he
    -- Over tables an entry is read or passed over, and a key that is not found is no cause for that.
    have hskippable := l.serves_snapshot.skipsOnly_read kind _ e he
    rw [LedgerError.isSkippable, hcause] at hskippable
    cases hskippable
  · exact fun h => ⟨_, l.getRecord_of_lacks kind hkey h, rfl⟩

/-- What a query for a key that a table has gives is what a pass gives for the key. -/
theorem getRecord_eq (hkey : key ≠ []) (h : ¬ l.tables.Lacks kind.table key)
    {start : Option Bytes} (hstart : start ≠ some []) (hat : AtOrAfter start key) :
    ∃ p, Pass.start kind l.snapshot { start } = .ok p ∧
      ∀ item, p.Gives key item ↔ item = .ofResult key (l.getRecord kind key) := by
  obtain ⟨value, hvalue⟩ := Tables.exists_find? h
  obtain ⟨p, hp, hgives⟩ := Pass.exists_start_gives l.serves_snapshot hstart hvalue hat
  refine ⟨p, hp, fun item => ?_⟩
  rw [hgives, Item.ofEntry_eq, l.getRecord_of_find? kind hkey hvalue]

theorem getBlock_eq (hash : BlockHash) :
    l.getBlock hash = l.getRecord .enrichedBlock hash.bytes := by
  rw [getBlock, getBlockAs]
  cases l.getRecord .enrichedBlock hash.bytes <;> rfl

theorem getBlockAs_eq (f : EnrichedBlock → β) (hash : BlockHash) :
    l.getBlockAs f hash = (l.getBlock hash).map f := by
  rw [getBlock_eq, getBlockAs]
  cases l.getRecord .enrichedBlock hash.bytes <;> rfl

theorem getAccount_eq (account : Account) :
    l.getAccount account = l.getRecord .enrichedAccount account.key.bytes := by
  rw [getAccount, getAccountAs]
  cases l.getRecord .enrichedAccount account.key.bytes <;> rfl

theorem getAccountAs_eq (f : EnrichedAccount → β) (account : Account) :
    l.getAccountAs f account = (l.getAccount account).map f := by
  rw [getAccount_eq, getAccountAs]
  cases l.getRecord .enrichedAccount account.key.bytes <;> rfl

/-- Queries agree with passes. A query fails because its key is not found exactly if its table lacks
the key, and else gives what a pass gives for the key, whether that is a record or a failure. Blocks
and accounts are converted alike by queries, for each key, and by passes, for each start and limit,
and a pass over converted records passes over the same entries and reports the same. -/
theorem queries_agree_with_passes (l : Ledger) :
    (∀ (kind : RecordKind) (key : Bytes), key ≠ [] →
      ((∃ e, l.getRecord kind key = .error e ∧ e.cause = .keyNotFound) ↔
        l.tables.Lacks kind.table key) ∧
      (¬ l.tables.Lacks kind.table key → ∀ start, start ≠ some [] → AtOrAfter start key →
        ∃ p, Pass.start kind l.snapshot { start } = .ok p ∧
          ∀ item, p.Gives key item ↔ item = .ofResult key (l.getRecord kind key))) ∧
    (∀ hash, l.getBlock hash = l.getRecord .enrichedBlock hash.bytes ∧
      l.getBlockAs EnrichedBlock.normalize hash = (l.getBlock hash).map EnrichedBlock.normalize ∧
      l.getBlockAs EnrichedBlock.normalize hash = l.getRecord .normalizedBlock hash.bytes) ∧
    (∀ account, l.getAccount account = l.getRecord .enrichedAccount account.key.bytes ∧
      l.getAccountAs EnrichedAccount.normalize account =
        (l.getAccount account).map EnrichedAccount.normalize ∧
      l.getAccountAs EnrichedAccount.normalize account =
        l.getRecord .normalizedAccount account.key.bytes) ∧
    ∀ options,
      Pass.ConvertedBy EnrichedBlock.normalize (Pass.start .enrichedBlock l.snapshot options)
        (Pass.start .normalizedBlock l.snapshot options) ∧
      Pass.ConvertedBy EnrichedAccount.normalize (Pass.start .enrichedAccount l.snapshot options)
        (Pass.start .normalizedAccount l.snapshot options) := by
  have hblock := RecordKind.converts_normalizedBlock
  have haccount := RecordKind.converts_normalizedAccount
  refine ⟨fun kind key hkey => ?_, fun hash => ?_, fun account => ?_, fun options => ?_⟩
  · exact ⟨l.getRecord_keyNotFound kind hkey,
      fun h start hstart hat => l.getRecord_eq kind hkey h hstart hat⟩
  · refine ⟨l.getBlock_eq hash, l.getBlockAs_eq _ hash, ?_⟩
    rw [hblock.getRecord_eq, ← getBlock_eq, getBlockAs_eq]
  · refine ⟨l.getAccount_eq _, l.getAccountAs_eq _ _, ?_⟩
    rw [haccount.getRecord_eq, ← getAccount_eq, getAccountAs_eq]
  · rw [hblock.start_eq, haccount.start_eq]
    exact ⟨Pass.convertedBy_map _ _, Pass.convertedBy_map _ _⟩

/-- The weight that is cut short is an error for a query as for a pass, and no weight has the key
seven. -/
theorem queries_agree_with_passes_twoWeights :
    ([200] : Bytes) ≠ [] ∧ ¬ Ledger.twoWeights.tables.Lacks .onlineWeight [200] ∧
      Ledger.twoWeights.getRecord .onlineWeight [200] = .error .truncated ∧
      (∃ p, Pass.start .onlineWeight Ledger.twoWeights.snapshot {} = .ok p ∧
        p.Gives [200] (.failure ⟨[200], .truncated⟩)) ∧
      ([7] : Bytes) ≠ [] ∧ Ledger.twoWeights.tables.Lacks .onlineWeight [7] := by
  have h200 : ([200] : Bytes) ≠ [] := nofun
  have h7 : ([7] : Bytes) ≠ [] := nofun
  have hpresent : ¬ Ledger.twoWeights.tables.Lacks .onlineWeight [200] := fun h =>
    Tables.lacks_iff.1 h [] rfl
  have hrecord : Ledger.twoWeights.getRecord .onlineWeight [200] = .error .truncated := rfl
  have hqueries := (queries_agree_with_passes .twoWeights).1
  obtain ⟨p, hp, hgives⟩ := (hqueries .onlineWeight [200] h200).2 hpresent none nofun
    (atOrAfter_none _)
  exact ⟨h200, hpresent, hrecord, ⟨p, hp, (hgives _).2 rfl⟩, h7,
    (hqueries .onlineWeight [7] h7).1.1 ⟨_, rfl, rfl⟩⟩

end Ledger

end NanoLedger
