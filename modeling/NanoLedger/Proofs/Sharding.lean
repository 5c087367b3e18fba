import NanoLedger.Proofs.Draining
import NanoLedger.Proofs.Serving

/-!
# Sharded exports

The shards of an export use up its budget in turn: each one gives the items of its range that what
is left of the budget admits (`Budget.share`). Since the ranges tile the keys from the start key on,
the items of all shards, one shard after another, are those of a single pass under the whole budget
(`Budget.flatten_share`, `Pass.flatMap_itemsIn`). So a sharded export of a ledger gives the records
and the counts of a single pass, and it fails to begin where a single pass does, as long as a pool of
threads can be built for it.
-/

namespace NanoLedger

/-! ## Sharing a budget in turn -/

namespace Budget

variable {α : Type}

/-- What lists of items get of a budget, each in its turn. -/
def share : Budget → List (List (Item α)) → List (List (Item α))
  | _, [] => []
  | b, xs :: xss => Item.within b xs :: share (b.after (Item.within b xs)) xss

/-- Lists that share a budget in turn get what the budget admits of all of them together. -/
theorem flatten_share (b : Budget) (xss : List (List (Item α))) :
    (b.share xss).flatten = Item.within b xss.flatten := by
  induction xss generalizing b with
  | nil => exact (Item.within_nil b).symm
  | cons xs xss ih => rw [share, List.flatten_cons, List.flatten_cons, ih, within_append]

end Budget

/-! ## The outcomes of the shards -/

section
variable {σ : Type} {kind : RecordKind} {s : Store} {ts : Tables} {m : KeyMap}

/-- The sinks that all begin in one state. -/
def ShardSinks.fresh {α : Type} (sink : Sink σ α) (state : σ) : ShardSinks σ α :=
  ⟨sink, fun _ => .ok state⟩

/-- What a list of items leaves in a sink, and its counts. -/
def shardOutcome {α : Type} (state : List α → σ) (items : List (Item α)) :
    Option σ × Except LedgerError Counts :=
  (some (state (Item.records items)), .ok (Counts.ofItems items))

variable {sink : Sink σ kind.Record} {state : List kind.Record → σ} {shards : Nat}
  {poolFault? : Nat → Option String}

/-- A shard gives the items of its range that the budget admits. -/
theorem runShard_eq (h : s.Serves ts) (hm : ts.table? kind.table = some m)
    (hsink : sink.Holds state) (index : Nat) {r : KeyRange}
    (hr : r.start ≠ some []) (b : Budget) :
    let run := runShard kind s (.fresh sink (state [])) index r b
    let items := Item.within b (Pass.itemsIn kind s m r)
    (run.sink, run.result) = shardOutcome state items ∧ run.budget = b.after items := by
  intro run items
  have hprospect : (Pass.ofRange kind s m r).prospect b = ⟨items, none⟩ :=
    Pass.prospect_ofRange h r b
  have hexport : (Pass.ofRange kind s m r).exportTo sink (state []) b = _ :=
    Pass.exportTo_eq rfl (by rw [hprospect]; exact hsink (Item.records items))
  rw [hprospect] at hexport
  simp only [run, runShard, ShardSinks.fresh, Pass.inRange_eq_ofRange h hm hr, hexport]
  simp [shardOutcome, Pass.report, Pass.ofRange, Pass.along]

/-- The shards give the items of their ranges that the budget admits in turn. -/
theorem runShards_eq (h : s.Serves ts) (hm : ts.table? kind.table = some m)
    (hsink : sink.Holds state) (index : Nat) {rs : List KeyRange}
    (hrs : ∀ r ∈ rs, r.start ≠ some []) (b : Budget) :
    (runShards kind s (.fresh sink (state [])) index b rs).map (fun run => (run.sink, run.result)) =
      (b.share (rs.map (Pass.itemsIn kind s m))).map (shardOutcome state) := by
  induction rs generalizing index b with
  | nil => rfl
  | cons r rs ih =>
    obtain ⟨hrun, hbudget⟩ := runShard_eq h hm hsink index (hrs r (.head _)) b
    have hresult : (runShard kind s (.fresh sink (state [])) index r b).result = .ok _ :=
      congrArg Prod.snd hrun
    simp only [runShards, hresult, List.map_cons, Budget.share, hbudget]
    rw [ih (index + 1) (fun r hr => hrs r (.tail _ hr)), ← hrun, hresult]

/-- The counts of shards that all succeed are those of their items together. -/
theorem totalCounts_eq {α : Type} {runs : List (ShardRun σ)} {xss : List (List (Item α))}
    (h : runs.map (·.result) = xss.map fun xs => .ok (Counts.ofItems xs)) :
    totalCounts runs = .ok (Counts.ofItems xss.flatten) := by
  induction runs generalizing xss with
  | nil =>
    cases xss with
    | nil => rfl
    | cons => cases h
  | cons run runs ih =>
    cases xss with
    | nil => cases h
    | cons xs xss =>
      rw [List.map_cons, List.map_cons, List.cons.injEq] at h
      rw [totalCounts, h.1, ih h.2, List.flatten_cons, Counts.ofItems_append]
      rfl

/-- The ranges of a sharded export tile the keys from its start key on, if there are any. -/
theorem shardRanges_eq {start : Option Bytes} {es : List Entry}
    (hwalk : s.walk kind.table start = .ok (es.map .ok)) (hne : start = none ∨ es ≠ [])
    (shards : Nat) :
    ∃ rs, shardRanges s kind.table start shards = .ok rs ∧ KeyRange.Tiling start rs := by
  cases start with
  | none => exact ⟨_, rfl, KeyRange.tiling_shards shards⟩
  | some key =>
    cases es with
    | nil => simp at hne
    | cons e es =>
      refine ⟨_, ?_, (KeyRange.tiling_shards shards).startingAt (atOrAfter_none key)⟩
      rw [shardRanges, hwalk]
      rfl

/-- A sharded export of a ledger with entries from the start key on gives each shard the items of
its range that the limit admits in turn. -/
theorem exportSharded_eq (h : s.Serves ts) (hm : ts.table? kind.table = some m)
    (hsink : sink.Holds state) {options : PassOptions}
    (hstart : options.start ≠ some [])
    (hne : options.start = none ∨ m.startingAt options.start ≠ [])
    (hpool : poolFault? (max shards 1) = none) :
    let report := exportSharded kind s options shards poolFault? (.fresh sink (state []))
    ∃ xss : List (List (Item kind.Record)),
      xss.flatten = Pass.itemsFrom kind s m options ∧
      report.sinks = xss.map (fun items => state (Item.records items)) ∧
      report.result = .ok (Counts.ofItems xss.flatten) := by
  intro report
  have hwalk := h.walk_eq kind.table _ hstart
  rw [Tables.walk_store hm] at hwalk
  obtain ⟨rs, hranges, htiling⟩ := shardRanges_eq hwalk hne shards
  have hruns := runShards_eq h hm hsink 0 (htiling.start_ne_nil hstart) options.limit
  refine ⟨Budget.share options.limit (rs.map (Pass.itemsIn kind s m)), ?_, ?_, ?_⟩
  · rw [Budget.flatten_share, ← List.flatMap_def, Pass.flatMap_itemsIn htiling,
      Pass.itemsFrom]
  · have := congrArg (List.filterMap Prod.fst) hruns
    rw [List.filterMap_map, List.filterMap_map] at this
    simp only [report, exportSharded, hranges, hpool, ShardedReport.sinks]
    exact this.trans (by simp [shardOutcome, Function.comp_def])
  · have := congrArg (List.map Prod.snd) hruns
    rw [List.map_map, List.map_map] at this
    simp only [report, exportSharded, hranges, hpool]
    exact totalCounts_eq this

/-- Where no single pass begins, no sharded export does, for the same reason. -/
theorem exportSharded_of_start_error (h : s.Serves ts) {options : PassOptions}
    (hstart : options.start ≠ some []) {e : LedgerError}
    (he : Pass.start kind s options = .error e) (hpool : poolFault? (max shards 1) = none)
    (sink : Sink σ kind.Record) (init : σ) :
    (exportSharded kind s options shards poolFault? (.fresh sink init)).result = .error e := by
  rcases Pass.start_tables_cases kind s ts options (h.walk_eq kind.table _ hstart) with
    ⟨hnone, hs⟩ | ⟨m, hm, ⟨key, hkey, hnil, hs⟩ | ⟨-, hs⟩⟩
  · rw [hs] at he
    cases he
    have hwalk := h.walk_eq kind.table _ hstart
    rw [Tables.walk_store_of_none hnone] at hwalk
    cases hopt : options.start with
    | some key =>
      rw [hopt] at hwalk
      simp [exportSharded, shardRanges, hopt, hwalk, bind, Except.bind]
    | none =>
      -- without a start key it is the first shard that meets the missing table
      rw [hopt] at hwalk
      obtain ⟨stop, rest, hranges⟩ := (KeyRange.tiling_shards shards).exists_cons
      simp [exportSharded, shardRanges, hopt, hranges, hpool, runShards, runShard,
        ShardSinks.fresh, Pass.inRange, hwalk, totalCounts, bind, Except.bind]
  · rw [hs] at he
    cases he
    have hwalk := h.walk_eq kind.table _ hstart
    rw [Tables.walk_store hm, hkey, hnil] at hwalk
    simp [exportSharded, shardRanges, hkey, hwalk, bind, Except.bind]
  · rw [hs] at he
    cases he

/-- What a single pass leaves behind. -/
theorem exportTable_eq (h : s.Serves ts) (hsink : sink.Holds state)
    {options : PassOptions}
    (hp : Pass.start kind s options =
      .ok (.along kind s ((m.startingAt options.start).map .ok) none options.limit)) :
    let items := Pass.itemsFrom kind s m options
    exportTable kind s options sink (state []) =
      .ok ⟨state (Item.records items), items, none, .ok (Counts.ofItems items)⟩ := by
  intro items
  have hprospect := Pass.prospect_along (h.skipsOnly_read kind) (m.startingAt options.start)
    options.limit
  have hexport : (Pass.along kind s ((m.startingAt options.start).map .ok) none
      options.limit).exportTo sink (state []) none = _ :=
    Pass.exportTo_eq rfl (by rw [hprospect]; exact hsink (Item.records items))
  rw [exportTable, hp]
  simp only [bind, Except.bind, hexport, hprospect]
  simp [items, Pass.itemsFrom, pure, Except.pure, Budget.after, Pass.report, Pass.along]

theorem exportTable_eq_error {s : Store} {options : PassOptions} {sink : Sink σ kind.Record}
    {init : σ} {e : LedgerError} :
    exportTable kind s options sink init = .error e ↔ Pass.start kind s options = .error e := by
  rw [exportTable]
  cases Pass.start kind s options <;> simp [bind, Except.bind, pure, Except.pure]

/-- A single pass that begins does so over a table with entries from the start key on, and succeeds
with the items of those. -/
theorem exportTable_eq_ok (h : s.Serves ts) (hsink : sink.Holds state)
    {options : PassOptions} (hstart : options.start ≠ some [])
    {single : ExportReport σ kind.Record}
    (hsingle : exportTable kind s options sink (state []) = .ok single) :
    ∃ m, ts.table? kind.table = some m ∧
      (options.start = none ∨ m.startingAt options.start ≠ []) ∧
      let items := Pass.itemsFrom kind s m options
      single = ⟨state (Item.records items), items, none, .ok (Counts.ofItems items)⟩ := by
  rcases Pass.start_tables_cases kind s ts options (h.walk_eq kind.table _ hstart) with
    ⟨-, hs⟩ | ⟨m, hm, ⟨_, -, -, hs⟩ | ⟨hne, hs⟩⟩
  · rw [exportTable_eq_error.2 hs] at hsingle
    cases hsingle
  · rw [exportTable_eq_error.2 hs] at hsingle
    cases hsingle
  · rw [exportTable_eq h hsink hs] at hsingle
    cases hsingle
    exact ⟨m, hm, hne, rfl⟩

/-- A sharded export gives, shard after shard, the items of a single pass under the same limit. -/
theorem exportSharded_of_exportTable (h : s.Serves ts)
    (hsink : sink.Holds state) {options : PassOptions}
    (hstart : options.start ≠ some []) {single : ExportReport σ kind.Record}
    (hsingle : exportTable kind s options sink (state []) = .ok single)
    (hpool : poolFault? (max shards 1) = none) :
    let sharded := exportSharded kind s options shards poolFault? (.fresh sink (state []))
    ∃ xss : List (List (Item kind.Record)),
      single = ⟨state (Item.records xss.flatten), xss.flatten, none,
        .ok (Counts.ofItems xss.flatten)⟩ ∧
      sharded.sinks = xss.map (fun items => state (Item.records items)) ∧
      sharded.result = .ok (Counts.ofItems xss.flatten) := by
  obtain ⟨m, hm, hne, hreport⟩ := exportTable_eq_ok h hsink hstart hsingle
  obtain ⟨xss, hitems, hsinks, hresult⟩ := exportSharded_eq h hm hsink hstart hne hpool
  rw [← hitems] at hreport
  exact ⟨xss, hreport, hsinks, hresult⟩

/-- Sinks that collect records hold, one after another, what the sink of a single pass does. -/
theorem exportSharded_collect (h : s.Serves ts) {options : PassOptions}
    (hstart : options.start ≠ some []) {single : ExportReport (Array kind.Record) kind.Record}
    (hsingle : exportTable kind s options (.collect kind.Record) #[] = .ok single)
    (hpool : poolFault? (max shards 1) = none) :
    let sharded := exportSharded kind s options shards poolFault?
      (.fresh (.collect kind.Record) #[])
    ∃ counts, single.result = .ok counts ∧ sharded.result = .ok counts ∧
      sharded.sinks.flatMap Array.toList = single.sink.toList := by
  obtain ⟨xss, rfl, hsinks, hresult⟩ := exportSharded_of_exportTable h Sink.holds_collect
    hstart hsingle hpool
  refine ⟨_, rfl, hresult, ?_⟩
  rw [hsinks, Item.records_flatten, List.flatMap_map]
  exact List.flatMap_def

/-- A sharded export fails exactly where no single pass begins. -/
theorem exportSharded_eq_error (h : s.Serves ts)
    (hsink : sink.Holds state) {options : PassOptions}
    (hstart : options.start ≠ some []) (hpool : poolFault? (max shards 1) = none)
    (e : LedgerError) :
    (exportSharded kind s options shards poolFault? (.fresh sink (state []))).result = .error e ↔
      exportTable kind s options sink (state []) = .error e := by
  rw [exportTable_eq_error]
  refine ⟨fun hresult => ?_, fun he => exportSharded_of_start_error h hstart he hpool _ _⟩
  cases hs : Pass.start kind s options with
  | error e' =>
    rw [exportSharded_of_start_error h hstart hs hpool] at hresult
    cases hresult
    rfl
  | ok p =>
    have hsingle : exportTable kind s options sink (state []) =
        .ok (p.exportTo sink (state []) none) := by
      rw [exportTable, hs]
      rfl
    obtain ⟨_, -, -, hok⟩ := exportSharded_of_exportTable h hsink hstart hsingle hpool
    rw [hok] at hresult
    cases hresult

end

/-! ## Sharded exports of a ledger -/

/-- The sharded export of a ledger, without a limit, gives the records of a single pass in their
order and its counts, and as lines of JSON the same text. It fails exactly where no single pass
begins, with the same error: the table is missing, or it has no entry from the start key on.

An empty start key is left out. A ledger refuses it, so that even a single pass meets an error. The
system is to build the pool of threads for the shards. -/
theorem exportSharded_eq_exportTable (l : Ledger) (kind : RecordKind) (json : kind.Record → Json)
    (start : Option Bytes) (hstart : start ≠ some []) (shards : Nat)
    {poolFault? : Nat → Option String} (hpool : poolFault? (max shards 1) = none) :
    (∀ single, exportTable kind l.snapshot { start } (.collect kind.Record) #[] = .ok single →
      let sharded := exportSharded kind l.snapshot { start } shards poolFault?
        (.fresh (.collect kind.Record) #[])
      ∃ counts, single.result = .ok counts ∧ sharded.result = .ok counts ∧
        sharded.sinks.flatMap Array.toList = single.sink.toList) ∧
    (∀ single, exportTable kind l.snapshot { start } (.jsonLines json) {} = .ok single →
      let sharded := exportSharded kind l.snapshot { start } shards poolFault?
        (.fresh (.jsonLines json) {})
      ∃ counts, single.result = .ok counts ∧ sharded.result = .ok counts ∧
        String.join (sharded.sinks.map (·.writer.text)) = single.sink.writer.text) ∧
    (∀ e, exportTable kind l.snapshot { start } (.collect kind.Record) #[] = .error e ↔
      (exportSharded kind l.snapshot { start } shards poolFault?
        (.fresh (.collect kind.Record) #[])).result = .error e) ∧
    (∀ e, exportTable kind l.snapshot { start } (.jsonLines json) {} = .error e ↔
      (exportSharded kind l.snapshot { start } shards poolFault?
        (.fresh (.jsonLines json) {})).result = .error e) ∧
    ∀ e, Pass.start kind l.snapshot { start } = .error e →
      e = kind.table.missing ∨ ∃ key, start = some key ∧ e = Pass.noEntryFrom kind.table key := by
  have h := l.serves_snapshot
  have hlines := Sink.holds_jsonLines json
  rw [show ({} : JsonLines) = .holding json [] from rfl]
  refine ⟨?_, ?_, ?_, ?_, ?_⟩
  · intro single hsingle
    exact exportSharded_collect h hstart hsingle hpool
  · intro single hsingle
    obtain ⟨xss, rfl, hsinks, hresult⟩ :=
      exportSharded_of_exportTable h hlines hstart hsingle hpool
    refine ⟨_, rfl, hresult, ?_⟩
    have hjoin := JsonLines.join_text json (xss.map Item.records)
    rw [List.map_map, ← Item.records_flatten] at hjoin
    rw [hsinks, List.map_map]
    exact hjoin
  · intro e
    exact (exportSharded_eq_error h Sink.holds_collect hstart hpool e).symm
  · intro e
    exact (exportSharded_eq_error h hlines hstart hpool e).symm
  · intro e he
    rcases Pass.start_tables_cases kind _ _ { start } (h.walk_eq kind.table start hstart) with
      ⟨-, hs⟩ | ⟨m, -, ⟨key, hkey, -, hs⟩ | ⟨-, hs⟩⟩
    · rw [hs] at he
      cases he
      exact .inl rfl
    · rw [hs] at he
      cases he
      exact .inr ⟨key, hkey, rfl⟩
    · rw [hs] at he
      cases he

/-- A ledger with two weights, the second one cut short. -/
def Ledger.twoWeights : Ledger :=
  ⟨(Tables.empty.insert .onlineWeight [1, 2, 3, 4, 5, 6, 7, 8] (List.replicate 16 9)).insert
    .onlineWeight [200] []⟩

/-- Of two weights in different shards one is produced and one is passed over, so that one of the four
sinks has a record. -/
theorem exportSharded_twoWeights :
    let poolFault? (threads : Nat) := if 100 < threads then some "no threads" else none
    let sharded := exportSharded .onlineWeight Ledger.twoWeights.snapshot { start := some [1] } 4
      poolFault? (.fresh (.collect _) #[])
    (some [1] : Option Bytes) ≠ some [] ∧ poolFault? (max 4 1) = none ∧
      sharded.result = .ok ⟨1, 1⟩ ∧ sharded.sinks.length = 4 ∧
      ∃ weight : OnlineWeight, sharded.sinks.flatMap Array.toList = [weight] ∧
        weight.timestamp = 0x0102030405060708 ∧
        weight.amount.toNat = 0x09090909090909090909090909090909 := by
  intro poolFault? sharded
  have hstart : (some [1] : Option Bytes) ≠ some [] := by decide
  have hpool : poolFault? (max 4 1) = none := rfl
  obtain ⟨counts, hsingle, hsharded, hrecords⟩ := (exportSharded_eq_exportTable .twoWeights
    .onlineWeight OnlineWeight.json (some [1]) hstart 4 hpool).1 _ rfl
  have hcounts : (.ok ⟨1, 1⟩ : Except LedgerError Counts) = .ok counts := hsingle
  exact ⟨hstart, hpool, hsharded.trans hcounts.symm, rfl, _, hrecords, rfl, rfl⟩

end NanoLedger
