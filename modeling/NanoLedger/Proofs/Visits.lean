import NanoLedger.Proofs.InMemory

/-!
# Which entries a pass makes something of

A call of `next` that gives an item has made it of the first entry of the walk that is left, and a
call that gives nothing is followed by no other one that does (`Pass.next_cases`). So the items of a
run belong to entries: `Pass.visits` lists both, `Pass.history` those of a pass until it is over, and
`Pass.Gives` says what a pass gives for a key.

If the items that a pass has in prospect are those of the first entries of its walk, these entries
are its history (`Pass.history_of_prospect`). So over a store that serves tables, the history of a
pass through a table is known: an item for each entry from the start key on, up to the record that
reaches the limit (`Pass.history_along`).
-/

namespace NanoLedger

variable {α : Type}

theorem Item.ofEntry_eq_record {read : Entry → Except LedgerError α} {e : Entry} {r : α} :
    Item.ofEntry read e = .record r ↔ read e = .ok r := by
  rw [Item.ofEntry]
  cases read e <;> simp

namespace Pass

/-! ## Visits -/

/-- The visit of an entry: the entry and its item. -/
def visit (read : Entry → Except LedgerError α) (e : Entry) : Entry × Item α :=
  (e, Item.ofEntry read e)

/-- The entries of which the first `n` calls of `next` make items, each with its item. -/
def visits : Nat → Pass α → List (Entry × Item α)
  | 0, _ => []
  | n + 1, p =>
    match p.rest, p.next with
    | .ok e :: _, (some item, q) => (e, item) :: visits n q
    | _, _ => []

/-- The visits of a pass until it is over. -/
def history (p : Pass α) : List (Entry × Item α) := p.visits p.enough

/-- Whether a pass gives an item for the entry under a key. -/
def Gives (p : Pass α) (key : Bytes) (item : Item α) : Prop :=
  ∃ value, (⟨key, value⟩, item) ∈ p.history

/-- The report of a pass when it is over. -/
def outcome (p : Pass α) : Except LedgerError Counts := (p.run p.enough).2.finish

/-- What comes of a draw: the pass is over, or it stands behind the first entry that was left and has
made a record of it or passed it over. -/
theorem draw_cases (p : Pass α) (budgetLeft : Bool) :
    (∃ q, p.draw budgetLeft = .ended q ∧ q.IsOver ∧ q.rest = p.rest ∧ q.read = p.read) ∨
    ∃ e q, p.rest = .ok e :: q.rest ∧ q.read = p.read ∧
      ((∃ r, p.draw budgetLeft = .ready r q ∧ p.read e = .ok r) ∨
        ∃ error, p.draw budgetLeft = .skipped ⟨e.key, error⟩ q ∧ p.read e = .error error ∧
          error.isSkippable) := by
  have hdone : (p.stop .done).IsOver := isOver_of_stopped (by simp [stop])
  have hfailed (e : LedgerError) : (p.stop (.failed e)).IsOver := isOver_of_stopped (by simp [stop])
  rw [draw]
  split
  · next hover => exact .inl ⟨p, rfl, hover.elim isOver_of_stopped isOver_of_remaining, rfl, rfl⟩
  split
  · exact .inl ⟨_, rfl, hdone, rfl, rfl⟩
  cases hrest : p.rest with
  | nil => exact .inl ⟨_, rfl, hdone, hrest, rfl⟩
  | cons x rest =>
    cases x with
    | error e => exact .inl ⟨_, rfl, hfailed e, hrest, rfl⟩
    | ok e =>
      simp only
      by_cases hpast : p.reaches e.key
      · rw [if_pos hpast]
        exact .inl ⟨_, rfl, hdone, hrest, rfl⟩
      rw [if_neg hpast]
      let q : Pass α := { p with rest }
      cases hread : p.read e with
      | ok r => exact .inr ⟨e, q, rfl, rfl, .inl ⟨r, rfl, hread⟩⟩
      | error error =>
        by_cases hskip : error.isSkippable
        · simp only [hskip, if_true]
          exact .inr ⟨e, q.skip, rfl, rfl, .inr ⟨error, rfl, hread, hskip⟩⟩
        · simp only [hskip]
          exact .inl ⟨_, rfl, hfailed error, hrest, rfl⟩

/-- A call of `next` gives the item of the first entry that is left and goes on behind it, or it
gives nothing and the pass is over. -/
theorem next_cases (p : Pass α) :
    (∃ e rest q, p.rest = .ok e :: rest ∧ p.next = (some (Item.ofEntry p.read e), q) ∧
      q.rest = rest ∧ q.read = p.read) ∨
    ∃ q, p.next = (none, q) ∧ q.IsOver := by
  rcases p.draw_cases true with ⟨q, hdraw, hover, -⟩ |
    ⟨e, q, hrest, hread, ⟨r, hdraw, hr⟩ | ⟨error, hdraw, herror, -⟩⟩
  · exact .inr ⟨q, by rw [next, hdraw], hover⟩
  · have hitem := Item.ofEntry_eq_record.2 hr
    exact .inl ⟨e, q.rest, q.take, hrest, by rw [next, hdraw, hitem], rfl, hread⟩
  · have hitem : Item.ofEntry p.read e = .failure ⟨e.key, error⟩ := by
      rw [Item.ofEntry, herror]
    exact .inl ⟨e, q.rest, q, hrest, by rw [next, hdraw, hitem], rfl, hread⟩

theorem visits_of_next_none {p q : Pass α} (h : p.next = (none, q)) (n : Nat) :
    p.visits n = [] := by
  cases n with
  | zero => rfl
  | succ n => rw [visits, h]; split <;> simp_all

theorem visits_of_next_some {p q : Pass α} {e : Entry} {rest : Walk} {item : Item α}
    (hrest : p.rest = .ok e :: rest) (h : p.next = (some item, q)) (n : Nat) :
    p.visits (n + 1) = (e, item) :: q.visits n := by
  rw [visits, hrest, h]

/-- A run gives the items of its visits and then nothing. -/
theorem run_eq_visits (p : Pass α) (n : Nat) :
    (p.run n).1 =
      (p.visits n).map (fun v => some v.2) ++ List.replicate (n - (p.visits n).length) none := by
  induction n generalizing p with
  | zero => rfl
  | succ n ih =>
    rcases p.next_cases with ⟨e, rest, q, hrest, hnext, -, -⟩ | ⟨q, hnext, hover⟩
    · rw [run_succ, hnext, visits_of_next_some hrest hnext, ih]
      simp
    · rw [run_succ, hnext, visits_of_next_none hnext, run_of_isOver hover]
      rfl

/-- Visits are made of the first entries of the walk. -/
theorem exists_visits_eq (p : Pass α) (n : Nat) :
    ∃ (es : List Entry) (rest : Walk), p.rest = es.map .ok ++ rest ∧
      p.visits n = es.map (visit p.read) := by
  induction n generalizing p with
  | zero => exact ⟨[], p.rest, rfl, rfl⟩
  | succ n ih =>
    rcases p.next_cases with ⟨e, rest, q, hrest, hnext, rfl, hread⟩ | ⟨q, hnext, -⟩
    · obtain ⟨es, rest', hq, hvisits⟩ := ih q
      rw [hread] at hvisits
      refine ⟨e :: es, rest', ?_, ?_⟩
      · rw [hrest, hq]
        rfl
      · rw [visits_of_next_some hrest hnext, hvisits]
        rfl
    · exact ⟨[], p.rest, rfl, visits_of_next_none hnext _⟩

/-- A record that a run gives was read from an entry of the walk. -/
theorem exists_read_of_mem_run {p : Pass α} {n : Nat} {r : α}
    (h : some (.record r) ∈ (p.run n).1) : ∃ e, .ok e ∈ p.rest ∧ p.read e = .ok r := by
  obtain ⟨es, rest, hrest, hvisits⟩ := p.exists_visits_eq n
  rw [run_eq_visits, hvisits] at h
  have hmem : Item.record r ∈ es.map (Item.ofEntry p.read) := by simpa [visit] using h
  obtain ⟨e, he, hitem⟩ := List.mem_map.1 hmem
  exact ⟨e, hrest ▸ List.mem_append_left _ (List.mem_map_of_mem he), Item.ofEntry_eq_record.1 hitem⟩

/-- The items of the visits are those in prospect. -/
theorem items_visits {p : Pass α} (hrun : p.progress = .running) (n : Nat) :
    (p.visits n).map (·.2) = (p.prospect none).items.take n := by
  induction n generalizing p with
  | zero => rfl
  | succ n ih =>
    match hitems : (p.prospect none).items with
    | [] =>
      obtain ⟨q, hnext, -⟩ := nextShared_nil hrun hitems
      rw [visits_of_next_none (q := q) (by rw [next_eq, hnext])]
      rfl
    | item :: items =>
      obtain ⟨hshared, hrun', -, -, hprospect⟩ := nextShared_cons hrun hitems
      have hnext : p.next = (some item, p.advance.counting item) := by rw [next_eq, hshared]
      rcases p.next_cases with ⟨e, rest, q, hrest, -⟩ | ⟨q, hnone, -⟩
      · have ih := ih hrun'
        rw [Budget.after, Option.map_none] at hprospect
        rw [hprospect] at ih
        rw [visits_of_next_some hrest hnext, List.map_cons, ih, List.take_succ_cons]
      · rw [hnone] at hnext
        cases hnext

/-- If the items in prospect are those of the first entries of the walk, these are the visits. -/
theorem history_of_prospect {p : Pass α} (hrun : p.progress = .running) {es xs : List Entry}
    (hrest : p.rest = es.map .ok) (hxs : xs <+: es)
    (hitems : (p.prospect none).items = xs.map (Item.ofEntry p.read)) :
    p.history = xs.map (visit p.read) := by
  obtain ⟨es', rest, hwalk, hvisits⟩ := p.exists_visits_eq p.enough
  have hprefix : es' <+: es := by
    obtain ⟨ys, zs, hes, hys, -⟩ := List.map_eq_append_iff.1 (hrest.symm.trans hwalk)
    rw [(List.map_inj_right fun _ _ h => Except.ok.inj h).1 hys] at hes
    exact ⟨zs, hes.symm⟩
  have hlength : es'.length = xs.length := by
    have henough : p.enough = es.length + 1 := by rw [enough, hrest, List.length_map]
    have hle := hxs.length_le
    have hvisited := congrArg List.length (items_visits hrun p.enough)
    rw [hvisits, hitems, henough] at hvisited
    simp only [List.length_map, List.length_take] at hvisited
    omega
  have hsame : es' = xs :=
    (List.prefix_of_prefix_length_le hprefix hxs (Nat.le_of_eq hlength)).eq_of_length hlength
  rw [history, hvisits, hsame]

/-- A pass that begins with no failure in prospect reports the counts of the items that it gave. -/
theorem outcome_of_prospect {p : Pass α} (hrun : p.progress = .running) (hcounts : p.counts = {})
    {items : List (Item α)} (h : p.prospect none = ⟨items, none⟩) :
    p.outcome = .ok (Counts.ofItems (p.history.map (·.2))) := by
  obtain ⟨-, -, hfinish⟩ := run_of_prospect hrun hcounts h p.enough
  rw [outcome, hfinish, history, items_visits hrun, h]

/-! ## Passes through tables -/

section

variable {kind : RecordKind} {s : Store} {ts : Tables}

/-- A pass that begins reads entries as its kind does. -/
theorem read_of_start {options : PassOptions} {p : Pass kind.Record}
    (h : start kind s options = .ok p) : p.read = kind.read s := by
  cases hwalk : s.walk kind.table options.start with
  | error e =>
    rw [start, inRange, hwalk] at h
    cases h
  | ok walk => rw [eq_along_of_start hwalk h, along]

/-- Over readable entries a pass visits those whose items the limit admits. -/
theorem history_along (hread : ∀ e, SkipsOnly (kind.read s e)) (es : List Entry)
    (limit : Option Nat) :
    (along kind s (es.map .ok) none limit).history =
      (es.take (Item.within limit (es.map (Item.ofEntry (kind.read s)))).length).map
        (visit (kind.read s)) := by
  refine history_of_prospect rfl rfl (List.take_prefix _ es) ?_
  rw [prospect_along hread, List.map_take]
  exact List.prefix_iff_eq_take.1 (Item.within_isPrefix _ _)

/-- Without a limit a pass visits every entry. -/
theorem history_unlimited (hread : ∀ e, SkipsOnly (kind.read s e)) (es : List Entry) :
    (along kind s (es.map .ok) none none).history = es.map (visit (kind.read s)) := by
  rw [history_along hread, Item.within, List.length_map, List.take_length]

/-- Over readable entries a pass reports the counts of the items that it gave. -/
theorem outcome_along (hread : ∀ e, SkipsOnly (kind.read s e)) (es : List Entry)
    (limit : Option Nat) :
    (along kind s (es.map .ok) none limit).outcome =
      .ok (Counts.ofItems ((along kind s (es.map .ok) none limit).history.map (·.2))) :=
  outcome_of_prospect rfl rfl (prospect_along hread es limit)

/-- What a pass without a limit gives for the key of an entry behind its start. -/
theorem exists_start_gives (h : s.Serves ts) {start : Option Bytes} (hstart : start ≠ some [])
    {key value : Bytes} (hfind : ts.find? kind.table key = some value)
    (hkey : AtOrAfter start key) :
    ∃ p, Pass.start kind s { start } = .ok p ∧
      ∀ item, p.Gives key item ↔ item = Item.ofEntry (kind.read s) ⟨key, value⟩ := by
  rcases start_tables_cases kind s ts { start } (h.walk_eq kind.table start hstart) with
    ⟨hnone, -⟩ | ⟨m, hm, hcases⟩
  · rw [Tables.find?, hnone] at hfind
    cases hfind
  have hmem (v : Bytes) : ⟨key, v⟩ ∈ m.startingAt start ↔ v = value := by
    rw [mem_startingAt hm, hfind, Option.some_inj, eq_comm]
    exact and_iff_left hkey
  rcases hcases with ⟨k, hk, hnil, -⟩ | ⟨-, hs⟩
  · have hvalue := (hmem value).2 rfl
    rw [show start = some k from hk, hnil] at hvalue
    cases hvalue
  · refine ⟨_, hs, fun item => ?_⟩
    simp only [Gives, history_unlimited (h.skipsOnly_read kind), List.mem_map, visit,
      Prod.mk.injEq]
    constructor
    · rintro ⟨v, e, he, rfl, rfl⟩
      rw [(hmem v).1 he]
    · rintro rfl
      exact ⟨value, _, (hmem value).2 rfl, rfl, rfl⟩

end

end Pass

end NanoLedger
