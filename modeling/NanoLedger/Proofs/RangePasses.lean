import NanoLedger.Proofs.Paging

/-!
# Passes over ranges of keys

The start of a range is applied by the store, which walks from there on, and its end by the pass,
which looks at the key of each entry that it takes. Together they admit the entries of the range: a
pass over a range makes something of these and of no other ones (`Pass.history_ofRange`), and never
fails (`Pass.run_ofRange`). So it visits nothing if no entry of its walk lies in front of the end of
the range (`Pass.history_eq_nil`). A range that is cut in two at a key is visited part after part,
and what the parts report adds up (`Pass.history_outcome_append`). `Pass.inRange_exact` says all this
of tables in memory.
-/

namespace NanoLedger

namespace Pass

variable {kind : RecordKind} {s : Store} {ts : Tables} {m : KeyMap}

/-! ## Ranges of a store that serves tables -/

/-- A pass over a range of keys visits the entries in the range. -/
theorem history_ofRange (h : s.Serves ts) (r : KeyRange) :
    (ofRange kind s m r).history =
      (m.entries.filter fun e => r.Contains e.key).map (visit (kind.read s)) := by
  refine history_of_prospect rfl rfl (KeyRange.filter_isPrefix m r) ?_
  exact congrArg Outlook.items (prospect_ofRange h r none)

/-- What any number of calls of `next` gives in a pass over a range of keys, and how the pass stands
then. -/
theorem run_ofRange (h : s.Serves ts) (r : KeyRange) (n : Nat) :
    let p := ofRange kind s m r
    let items := itemsIn kind s m r
    (p.run n).1 = (List.range n).map (items[·]?) ∧
      (p.run n).2.counts = Counts.ofItems (items.take n) ∧
      (p.run n).2.finish = .ok (Counts.ofItems (items.take n)) :=
  run_of_prospect rfl rfl (prospect_ofRange h r none) n

/-- A pass over a range of keys reports the counts of its visits. -/
theorem outcome_ofRange (h : s.Serves ts) (r : KeyRange) :
    (ofRange kind s m r).outcome =
      .ok (Counts.ofItems ((ofRange kind s m r).history.map (·.2))) :=
  outcome_of_prospect rfl rfl (prospect_ofRange h r none)

/-- A pass visits nothing if no entry of its walk lies in front of the end of its range. -/
theorem history_eq_nil (h : s.Serves ts) {r : KeyRange}
    (hempty : ∀ e ∈ m.startingAt r.start, ¬ ∀ stop ∈ r.stop, e.key < stop) :
    (ofRange kind s m r).history = [] := by
  rw [history_ofRange h, List.map_eq_nil_iff, List.eq_nil_iff_forall_not_mem]
  intro e he
  have hcontains := (List.mem_filter.1 he).2
  rw [decide_eq_true_eq] at hcontains
  exact hempty e ((KeyRange.filter_isPrefix m r).subset he) hcontains.2

/-- The visits of a range that is cut in two, and what is reported of them. -/
theorem history_outcome_append (h : s.Serves ts) {start stop : Option Bytes} {key : Bytes}
    (hstart : AtOrAfter start key) (hstop : ∀ last ∈ stop, key ≤ last) :
    let whole := ofRange kind s m ⟨start, stop⟩
    let low := ofRange kind s m ⟨start, some key⟩
    let high := ofRange kind s m ⟨some key, stop⟩
    whole.history = low.history ++ high.history ∧
      ∃ c c', low.outcome = .ok c ∧ high.outcome = .ok c' ∧ whole.outcome = .ok (c + c') := by
  intro whole low high
  have hsplit : whole.history = low.history ++ high.history := by
    rw [history_ofRange h, history_ofRange h, history_ofRange h, ← List.map_append,
      KeyRange.filter_append_filter hstart hstop m.sorted]
  refine ⟨hsplit, _, _, outcome_ofRange h _, outcome_ofRange h _, ?_⟩
  rw [outcome_ofRange h, hsplit, List.map_append, Counts.ofItems_append]

/-! ## Ranges of tables in memory -/

/-- A pass over tables in memory that is not strict begins over any range. -/
theorem inRange_tables (hm : ts.table? kind.table = some m) (start stop : Option Bytes) :
    inRange kind ts.store start stop none false = .ok (ofRange kind ts.store m ⟨start, stop⟩) :=
  inRange_eq_along (Tables.walk_store hm start) stop none

/-- The entries of a table in a range. -/
theorem mem_filter_contains (hm : ts.table? kind.table = some m) (start stop : Option Bytes)
    (e : Entry) :
    (e ∈ m.entries.filter fun e => (KeyRange.mk start stop).Contains e.key) ↔
      ts.find? kind.table e.key = some e.value ∧
        (∀ first ∈ start, first ≤ e.key) ∧ ∀ last ∈ stop, e.key < last := by
  rw [List.mem_filter, decide_eq_true_eq, Tables.mem_entries hm]
  rfl

/-- Passes that are not strict are exact on any range of keys of a table in memory.

Such a pass begins. Its calls of `next` give, one by one and then nothing for ever, the items of the
entries from the start on and in front of the end, in strictly ascending order; after each call the
counts are those of the items given so far, and there is no failure. It visits nothing if the range
ends where it starts or in front of that, nor if the first entry of its walk lies at or behind the
end.

At any key that is neither in front of the start nor behind the end the range can be cut in two: the
visits below the key and then those from the key on are those of the range, and the counts add
up. -/
theorem inRange_exact (ts : Tables) (kind : RecordKind) (h : (ts.table? kind.table).isSome)
    (start stop : Option Bytes) :
    ∃ whole, inRange kind ts.store start stop none false = .ok whole ∧
      (∃ es : List Entry, es.Pairwise (fun a b => a.key < b.key) ∧
        (∀ e, e ∈ es ↔ ts.find? kind.table e.key = some e.value ∧
          (∀ first ∈ start, first ≤ e.key) ∧ ∀ last ∈ stop, e.key < last) ∧
        whole.history = es.map (visit (kind.read ts.store)) ∧
        let items := es.map (Item.ofEntry (kind.read ts.store))
        ∀ n, (whole.run n).1 = (List.range n).map (items[·]?) ∧
          (whole.run n).2.counts = Counts.ofItems (items.take n) ∧
          (whole.run n).2.finish = .ok (Counts.ofItems (items.take n))) ∧
      (∀ first ∈ start, ∀ last ∈ stop, last ≤ first → whole.history = []) ∧
      (∀ e rest, whole.rest = .ok e :: rest → ∀ last ∈ stop, last ≤ e.key → whole.history = []) ∧
      ∀ key, (∀ first ∈ start, first ≤ key) → (∀ last ∈ stop, key ≤ last) →
        ∃ low high, inRange kind ts.store start (some key) none false = .ok low ∧
          inRange kind ts.store (some key) stop none false = .ok high ∧
          whole.history = low.history ++ high.history ∧
          ∃ c c', low.outcome = .ok c ∧ high.outcome = .ok c' ∧ whole.outcome = .ok (c + c') := by
  obtain ⟨m, hm⟩ := Option.isSome_iff_exists.1 h
  have hserves := ts.serves_store
  refine ⟨_, inRange_tables hm start stop, ?_, ?_, ?_, ?_⟩
  · exact ⟨_, m.sorted.filter _, mem_filter_contains hm start stop, history_ofRange hserves _,
      run_ofRange hserves _⟩
  · intro first hfirst last hlast hle
    refine history_eq_nil hserves fun e he hin => ?_
    have hstart : first ≤ e.key := ((mem_startingAt hm start e).1 he).2 first hfirst
    exact List.not_lt.2 (List.le_trans hle hstart) (hin last hlast)
  · intro e rest hrest last hlast hle
    refine history_eq_nil hserves fun e' he' hin => ?_
    obtain ⟨_, es, hes, hfirst, -⟩ := List.map_eq_cons_iff.1 hrest
    cases hfirst
    have hfrom : e.key ≤ e'.key := KeyMap.le_of_startingAt_eq_cons hes he'
    exact List.not_lt.2 (List.le_trans hle hfrom) (hin last hlast)
  · intro key hkey hlast
    exact ⟨_, _, inRange_tables hm start (some key), inRange_tables hm (some key) stop,
      history_outcome_append hserves hkey hlast⟩

/-- Three weights, cut at the key of the one that is cut short: one is below it, and it is the first
one of the rest. -/
theorem inRange_exact_threeWeights :
    (threeWeights.table? RecordKind.onlineWeight.table).isSome ∧
      ∃ whole low high,
        inRange .onlineWeight threeWeights.store none none none false = .ok whole ∧
        inRange .onlineWeight threeWeights.store none (some [1, 2]) none false = .ok low ∧
        inRange .onlineWeight threeWeights.store (some [1, 2]) none none false = .ok high ∧
        low.history.length = 1 ∧ high.history.length = 2 ∧
        whole.history = low.history ++ high.history := by
  have h : (threeWeights.table? RecordKind.onlineWeight.table).isSome := rfl
  obtain ⟨whole, hwhole, -, -, -, hcut⟩ := inRange_exact threeWeights .onlineWeight h none none
  obtain ⟨low, high, hlow, hhigh, hsplit, -⟩ := hcut [1, 2] nofun nofun
  refine ⟨h, whole, low, high, hwhole, hlow, hhigh, ?_, ?_, hsplit⟩
  · cases hlow
    rfl
  · cases hhigh
    rfl

/-- Between two neighbouring keys there is nothing to visit, though the walk holds an entry. -/
example : (inRange .onlineWeight threeWeights.store (some [1, 3]) (some [1, 9]) none false).map
    (fun p => (p.rest.length, p.history.length)) = .ok (1, 0) := rfl

end Pass

end NanoLedger
