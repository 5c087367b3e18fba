import NanoLedger.Proofs.Visits

/-!
# Paging through a table

A pass that was limited is resumed behind the key of the last entry that it came to: at that key
with a zero behind it, which is the least key above it (`append_zero_le_iff`). What is left of the
table from there on is what the limited pass left (`KeyMap.startingAt_append_zero`), so both
together give what one pass without a limit gives (`Pass.start_resumed`). Passes that are resumed
one after another page through the table (`Pass.pages`): by induction over the pages, each of which
comes to an entry at least, every entry is visited once (`Pass.exists_pages_eq`).
-/

namespace NanoLedger

/-! ## The least key above a key -/

/-- A key with a zero behind it is the least key above it. -/
theorem append_zero_le_iff {k key : Bytes} : k ++ [0] ≤ key ↔ k < key := by
  induction k generalizing key with
  | nil =>
    cases key with
    | nil => decide
    | cons b key => simp [List.cons_le_cons_iff, Std.le_iff_lt_or_eq.1 (UInt8.zero_le (a := b))]
  | cons a k ih =>
    cases key with
    | nil => simp
    | cons b key => rw [List.cons_append, List.cons_le_cons_iff, List.cons_lt_cons_iff, ih]

/-- Behind an entry of a table, there are the entries that follow it. -/
theorem KeyMap.startingAt_append_zero {m : KeyMap} {start : Option Bytes} {xs ys : List Entry}
    {e : Entry} (h : m.startingAt start = xs ++ e :: ys) :
    m.startingAt (some (e.key ++ [0])) = ys := by
  have hsorted := m.sorted_startingAt start
  have hbehind : m.startingAt (some (e.key ++ [0])) =
      (m.startingAt start).filter fun x => e.key < x.key := by
    have he : e ∈ m.startingAt start := by simp [h]
    rw [startingAt_eq, List.mem_filter, decide_eq_true_eq] at he
    rw [startingAt_eq, startingAt_eq, List.filter_filter]
    refine List.filter_congr fun x _ => ?_
    have hstart : e.key < x.key → AtOrAfter start x.key := fun hlt k hk =>
      List.le_of_lt (Std.lt_of_le_of_lt (he.2 k hk) hlt)
    by_cases hlt : e.key < x.key
    · simp [append_zero_le_iff, hlt, hstart hlt]
    · simp [append_zero_le_iff, hlt]
  rw [h] at hsorted
  obtain ⟨-, hys, hxs⟩ := List.pairwise_append.1 hsorted
  have hlow : xs.filter (fun x => e.key < x.key) = [] := by
    refine List.filter_eq_nil_iff.2 fun x hx => ?_
    simpa using List.le_of_lt (hxs x hx e (.head _))
  have hhigh : ys.filter (fun x => e.key < x.key) = ys :=
    List.filter_eq_self.2 fun x hx => decide_eq_true ((List.pairwise_cons.1 hys).1 x hx)
  rw [hbehind, h, List.filter_append, List.filter_cons_of_neg (by simp), hlow, hhigh,
    List.nil_append]

namespace Pass

variable {kind : RecordKind} {s : Store} {ts : Tables} {m : KeyMap} {start : Option Bytes}

/-! ## The end of a limited pass -/

/-- A pass that came to an entry last has left the entries behind it. -/
theorem exists_history_eq (hread : ∀ e, SkipsOnly (kind.read s e)) {es : List Entry}
    {limit : Option Nat} {e : Entry} {item : Item kind.Record}
    (hlast : (along kind s (es.map .ok) none limit).history.getLast? = some (e, item)) :
    ∃ xs ys, es = xs ++ e :: ys ∧ (along kind s (es.map .ok) none limit).history =
      (xs ++ [e]).map (visit (kind.read s)) := by
  rw [history_along hread] at hlast ⊢
  generalize (Item.within limit (es.map (Item.ofEntry (kind.read s)))).length = n at *
  rw [List.getLast?_map, Option.map_eq_some_iff] at hlast
  obtain ⟨x, hx, hpair⟩ := hlast
  cases hpair
  obtain ⟨xs, hxs⟩ := List.getLast?_eq_some_iff.1 hx
  refine ⟨xs, es.drop n, ?_, by rw [hxs]⟩
  rw [List.append_cons, ← hxs, List.take_append_drop]

/-- A pass that admits a record comes to an entry, if there is one. -/
theorem history_ne_nil (hread : ∀ e, SkipsOnly (kind.read s e)) {es : List Entry} (hes : es ≠ [])
    {limit : Nat} (hlimit : 1 ≤ limit) :
    (along kind s (es.map .ok) none (some limit)).history ≠ [] := by
  obtain ⟨n, rfl⟩ : ∃ n, limit = n + 1 := ⟨limit - 1, by omega⟩
  obtain ⟨e, es, rfl⟩ := List.exists_cons_of_ne_nil hes
  rw [history_along hread, List.map_cons, Item.within]
  cases Item.ofEntry (kind.read s) e <;> simp [Item.upTo]

/-- A pass that is resumed behind an entry comes to the entries that follow it, if there are any. -/
theorem start_behind (hm : ts.table? kind.table = some m) {xs ys : List Entry} {e : Entry}
    (h : m.startingAt start = xs ++ e :: ys) :
    (ys = [] → Pass.start kind ts.store { start := some (e.key ++ [0]) } =
      .error (noEntryFrom kind.table (e.key ++ [0]))) ∧
    (ys ≠ [] → Pass.start kind ts.store { start := some (e.key ++ [0]) } =
      .ok (along kind ts.store (ys.map .ok) none none)) := by
  have hwalk : ts.store.walk kind.table (some (e.key ++ [0])) = .ok (ys.map .ok) := by
    rw [Tables.walk_store hm, KeyMap.startingAt_append_zero h]
  constructor
  · rintro rfl
    rw [Pass.start, inRange, hwalk]
    rfl
  · intro hys
    exact start_eq_along hwalk (.inr (by simpa using hys))

/-- A limited pass that came to an entry last, and the pass that is resumed behind that entry, give
together what one pass without a limit gives. The resumed pass does not begin if nothing is left. -/
theorem start_resumed {limit : Nat} {p : Pass kind.Record}
    (hp : Pass.start kind ts.store { start, limit := some limit } = .ok p) {e : Entry}
    {item : Item kind.Record} (hlast : p.history.getLast? = some (e, item)) :
    let resumed := Pass.start kind ts.store { start := some (e.key ++ [0]) }
    ∃ whole, Pass.start kind ts.store { start } = .ok whole ∧
      (∀ err, resumed = .error err ↔
        err = noEntryFrom kind.table (e.key ++ [0]) ∧ whole.history = p.history) ∧
      ∀ q, resumed = .ok q →
        whole.history = p.history ++ q.history ∧
        ∃ c c', p.outcome = .ok c ∧ q.outcome = .ok c' ∧ whole.outcome = .ok (c + c') := by
  intro resumed
  have hread := skipsOnly_read_tables ts kind
  rcases start_tables_cases kind ts.store ts { start, limit := some limit } rfl with
    ⟨-, hs⟩ | ⟨m, hm, ⟨_, -, -, hs⟩ | ⟨-, hs⟩⟩
  · cases hs.symm.trans hp
  · cases hs.symm.trans hp
  cases hs.symm.trans hp
  obtain ⟨xs, ys, hes, hhistory⟩ := exists_history_eq hread hlast
  let whole := along kind ts.store ((m.startingAt start).map .ok) none none
  have hwhole : Pass.start kind ts.store { start } = .ok whole :=
    start_eq_along (Tables.walk_store hm start) (.inr (by simp [hes]))
  have hsplit : whole.history =
      (xs ++ [e]).map (visit (kind.read ts.store)) ++ ys.map (visit (kind.read ts.store)) := by
    rw [history_unlimited hread, hes, List.append_cons, List.map_append]
  obtain ⟨hend, hbehind⟩ := start_behind hm hes
  refine ⟨whole, hwhole, ?_⟩
  rw [hhistory, hsplit]
  by_cases hys : ys = []
  · have hresumed : resumed = .error _ := hend hys
    rw [hresumed, hys]
    refine ⟨fun err => by simp [eq_comm], ?_⟩
    rintro q ⟨⟩
  · have hresumed : resumed = .ok _ := hbehind hys
    rw [hresumed]
    refine ⟨fun err => by simp [hys], ?_⟩
    rintro q ⟨⟩
    have hq : (along kind ts.store (ys.map .ok) none none).history = _ :=
      history_unlimited hread ys
    have hcounts : whole.outcome = .ok (Counts.ofItems (whole.history.map (·.2))) :=
      outcome_along hread _ _
    refine ⟨by rw [hq], _, _, outcome_along hread _ _, outcome_along hread _ _, ?_⟩
    rw [hcounts, hsplit, List.map_append, Counts.ofItems_append, ← hhistory, ← hq]

/-! ## Pages -/

/-- Page through a table: a pass for each limit, begun behind the last entry that the page before it
came to, or where that page began if it came to none. Gives the visits of each page, and the error
with which a page could not begin. -/
def pages (kind : RecordKind) (s : Store) :
    Option Bytes → List Nat → List (List (Entry × Item kind.Record)) × Option LedgerError
  | _, [] => ([], none)
  | start, limit :: limits =>
    match Pass.start kind s { start, limit := some limit } with
    | .error e => ([], some e)
    | .ok p =>
      let next := match p.history.getLast? with
        | some (entry, _) => some (entry.key ++ [0])
        | none => start
      let (rest, ending) := pages kind s next limits
      (p.history :: rest, ending)

/-- What the first page comes to: there is none if no entry lies at or behind the start key; in a
table without entries it is empty; and otherwise it comes to an entry last, and the other pages begin
behind that one. -/
theorem pages_cons (hm : ts.table? kind.table = some m) {limit : Nat} (hlimit : 1 ≤ limit)
    (limits : List Nat) (start : Option Bytes) :
    (∃ key, start = some key ∧ m.startingAt start = [] ∧
      pages kind ts.store start (limit :: limits) = ([], some (noEntryFrom kind.table key))) ∨
    (start = none ∧ m.startingAt start = [] ∧
      pages kind ts.store start (limit :: limits) =
        ([] :: (pages kind ts.store start limits).1, (pages kind ts.store start limits).2)) ∨
    ∃ xs e ys, m.startingAt start = xs ++ e :: ys ∧
      pages kind ts.store start (limit :: limits) =
        ((xs ++ [e]).map (visit (kind.read ts.store)) ::
            (pages kind ts.store (some (e.key ++ [0])) limits).1,
          (pages kind ts.store (some (e.key ++ [0])) limits).2) := by
  have hread := skipsOnly_read_tables ts kind
  rcases start_tables_cases kind ts.store ts { start, limit := some limit } rfl with
    ⟨hnone, -⟩ | ⟨m', hm', ⟨key, hkey, hnil, hs⟩ | ⟨hne, hs⟩⟩
  · cases hm.symm.trans hnone
  · cases hm.symm.trans hm'
    refine .inl ⟨key, hkey, ?_, by rw [pages, hs]⟩
    rw [show start = some key from hkey, hnil]
  · cases hm.symm.trans hm'
    rw [pages, hs]
    simp only
    match hlast : (along kind ts.store ((m.startingAt start).map .ok) none
        (some limit)).history.getLast? with
    | none =>
      have hempty := List.getLast?_eq_none_iff.1 hlast
      have hnil : m.startingAt start = [] :=
        Decidable.not_not.1 fun hes => history_ne_nil hread hes hlimit hempty
      exact .inr (.inl ⟨hne.resolve_right (not_not_intro hnil), hnil, by rw [hempty]⟩)
    | some (e, item) =>
      obtain ⟨xs, ys, hes, hhistory⟩ := exists_history_eq hread hlast
      exact .inr (.inr ⟨xs, e, ys, hes, by rw [hhistory]⟩)

/-- What pages come to: entries of the table in order and without a gap. The paging ends when no
entry is left; up to then each page comes to an entry at least, unless the table has none. -/
theorem exists_pages_eq (hm : ts.table? kind.table = some m) {limits : List Nat}
    (hlimits : ∀ n ∈ limits, 1 ≤ n) (start : Option Bytes) :
    ∃ xs ys, m.startingAt start = xs ++ ys ∧
      (pages kind ts.store start limits).1.flatten = xs.map (visit (kind.read ts.store)) ∧
      (∀ e, (pages kind ts.store start limits).2 = some e →
        ys = [] ∧ ∃ key, e = noEntryFrom kind.table key) ∧
      ((pages kind ts.store start limits).2 = none →
        limits.length ≤ xs.length ∨ m.startingAt start = [] ∧ start = none) := by
  -- Each page begins behind the one before it, so the claim is made for every start.
  induction limits generalizing start with
  | nil => exact ⟨[], m.startingAt start, rfl, rfl, nofun, fun _ => .inl (Nat.le_refl 0)⟩
  | cons limit limits ih =>
    have ih := ih fun n hn => hlimits n (.tail _ hn)
    rcases pages_cons hm (hlimits limit (.head _)) limits start with
      ⟨key, rfl, hnil, hpages⟩ | ⟨rfl, hnil, hpages⟩ | ⟨xs, e, ys, hes, hpages⟩
    · rw [hpages]
      refine ⟨[], [], hnil, rfl, ?_, nofun⟩
      rintro _ ⟨⟩
      exact ⟨rfl, key, rfl⟩
    · obtain ⟨xs, ys, hsplit, hflatten, hend, -⟩ := ih none
      rw [hpages]
      exact ⟨xs, ys, hsplit, hflatten, hend, fun _ => .inr ⟨hnil, rfl⟩⟩
    · obtain ⟨xs', ys', hsplit, hflatten, hend, hlength⟩ := ih (some (e.key ++ [0]))
      rw [KeyMap.startingAt_append_zero hes] at hsplit
      rw [hpages]
      refine ⟨(xs ++ [e]) ++ xs', ys', ?_, ?_, hend, fun hnone => .inl ?_⟩
      · rw [hes, hsplit]
        simp
      · rw [List.flatten_cons, hflatten, ← List.map_append]
      · rcases hlength hnone with hle | ⟨-, hstart⟩
        · simp only [List.length_cons, List.length_append, List.length_nil]
          omega
        · cases hstart

/-- A pass without a limit visits the entries from its start key on, each once and in ascending
order of their keys. -/
theorem history_of_start {whole : Pass kind.Record}
    (hwhole : Pass.start kind ts.store { start } = .ok whole) :
    ∃ m, ts.table? kind.table = some m ∧
      whole.history = (m.startingAt start).map (visit (kind.read ts.store)) := by
  rcases start_tables_cases kind ts.store ts { start } rfl with
    ⟨-, hs⟩ | ⟨m, hm, ⟨_, -, -, hs⟩ | ⟨-, hs⟩⟩
  · cases hs.symm.trans hwhole
  · cases hs.symm.trans hwhole
  · cases hs.symm.trans hwhole
    exact ⟨m, hm, history_unlimited (skipsOnly_read_tables ts kind) _⟩

/-- Passes over tables in memory can be resumed without loss or repetition.

If a limited pass came to an entry last, the pass without a limit from the least key above it on
begins unless nothing is left. Its items are those that the limited pass left, so both sequences of
items together are that of one pass without a limit, and the counts add up.

Paging through a table, with any limits that admit a record, therefore comes to every entry from the
start key on exactly once: the pages together are one pass without a limit, as soon as the paging has
ended, as it does with more pages than entries. -/
theorem resume_without_loss (ts : Tables) (kind : RecordKind) (start : Option Bytes) :
    (∀ limit p, Pass.start kind ts.store { start, limit := some limit } = .ok p →
      ∀ e item, p.history.getLast? = some (e, item) →
        let resumed := Pass.start kind ts.store { start := some (e.key ++ [0]) }
        ∃ whole, Pass.start kind ts.store { start } = .ok whole ∧
          (∀ err, resumed = .error err ↔
            err = noEntryFrom kind.table (e.key ++ [0]) ∧ whole.history = p.history) ∧
          ∀ q, resumed = .ok q →
            whole.history = p.history ++ q.history ∧
            ∃ c c', p.outcome = .ok c ∧ q.outcome = .ok c' ∧ whole.outcome = .ok (c + c')) ∧
    ∀ whole, Pass.start kind ts.store { start } = .ok whole →
      (whole.history.map (·.1)).Pairwise (fun a b => a.key < b.key) ∧
      (∀ e, e ∈ whole.history.map (·.1) ↔
        ts.find? kind.table e.key = some e.value ∧ ∀ key ∈ start, key ≤ e.key) ∧
      ∀ limits, (∀ n ∈ limits, 1 ≤ n) →
        let paging := pages kind ts.store start limits
        (∀ err, paging.2 = some err →
          (∃ key, err = noEntryFrom kind.table key) ∧ paging.1.flatten = whole.history) ∧
        (whole.history.length < limits.length →
          paging.1.flatten = whole.history ∧
            (whole.history ≠ [] → ∃ err, paging.2 = some err)) := by
  refine ⟨fun limit p hp e item hlast => start_resumed hp hlast, fun whole hwhole => ?_⟩
  obtain ⟨m, hm, hhistory⟩ := history_of_start hwhole
  have hentries : whole.history.map (·.1) = m.startingAt start := by
    rw [hhistory, List.map_map]
    exact List.map_id _
  refine ⟨hentries ▸ m.sorted_startingAt start, fun e => hentries ▸ mem_startingAt hm start e, ?_⟩
  intro limits hlimits paging
  obtain ⟨xs, ys, hsplit, hflatten, hend, hlength⟩ := exists_pages_eq hm hlimits start
  have hall : ys = [] → paging.1.flatten = whole.history := by
    rintro rfl
    rw [hhistory, hsplit, List.append_nil]
    exact hflatten
  refine ⟨fun err herr => ⟨(hend err herr).2, hall (hend err herr).1⟩, fun hlt => ?_⟩
  rw [hhistory, List.length_map, hsplit, List.length_append] at hlt
  cases hending : paging.2 with
  | some err => exact ⟨hall (hend err hending).1, fun _ => ⟨err, rfl⟩⟩
  | none =>
    rcases hlength hending with hle | ⟨hnil, -⟩
    · omega
    · rw [hsplit, List.append_eq_nil_iff] at hnil
      refine ⟨hall hnil.2, fun hne => absurd ?_ hne⟩
      rw [hhistory, hsplit, hnil.1, hnil.2]
      rfl

/-- Two weights and, between them, one whose key is cut short. -/
def threeWeights : Tables :=
  .ofUpdates [.insert .onlineWeight (List.replicate 8 1) (List.replicate 16 9),
    .insert .onlineWeight [1, 2] [], .insert .onlineWeight (List.replicate 8 2) (List.replicate 16 7)]

/-- A pass that stops behind the first weight is resumed with the entry that is cut short, and the
third page of one record each does not begin. -/
theorem resume_without_loss_threeWeights :
    ∃ p q whole e item,
      Pass.start .onlineWeight threeWeights.store { limit := some 1 } = .ok p ∧
      p.history.getLast? = some (e, item) ∧ e.key = List.replicate 8 1 ∧
      Pass.start .onlineWeight threeWeights.store { start := some (e.key ++ [0]) } = .ok q ∧
      Pass.start .onlineWeight threeWeights.store {} = .ok whole ∧
      whole.history = p.history ++ q.history ∧
      (pages .onlineWeight threeWeights.store none [1, 1, 1]).1.flatten = whole.history := by
  obtain ⟨hresume, hpage⟩ := resume_without_loss threeWeights .onlineWeight none
  obtain ⟨whole, hwhole, -, hq⟩ := hresume 1 _ rfl _ _ rfl
  have hending : ∃ err, (pages .onlineWeight threeWeights.store none [1, 1, 1]).2 = some err :=
    ⟨_, rfl⟩
  obtain ⟨err, herr⟩ := hending
  have hlimits : ∀ n ∈ [1, 1, 1], 1 ≤ n := by decide
  exact ⟨_, _, whole, _, _, rfl, rfl, rfl, rfl, hwhole, (hq _ rfl).1,
    (((hpage whole hwhole).2.2 [1, 1, 1] hlimits).1 err herr).2⟩

end Pass

end NanoLedger
