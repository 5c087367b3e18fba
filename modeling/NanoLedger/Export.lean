import NanoLedger.KeyRange
import NanoLedger.Pass
import NanoLedger.Sink

/-!
# Exports

An export drains a pass into a sink. Entries that made no record never reach the sink. If the sink
fails, the export ends there; an error of the store is reported after the sink has been finished.
The export into a sink that may not come back need not come back either (`Pass.exportInto`).

A sharded export cuts the table into key ranges, with a pass and a sink for each. The shards share
the limit of the whole export as a budget. They are given to a pool of threads, which has to be
built first; here they run in the order of their keys.
-/

namespace NanoLedger

variable {σ : Type}

/-- How far a pass was drained: what is left of it and of the budget, its items so far, and whether
the sink took all records. -/
structure Drained (σ α : Type) where
  pass : Pass α
  budget : Budget
  sink : σ
  items : List (Item α)
  taken : Except LedgerError Unit

/-- Put an item in front of those that were drained. -/
def Drained.cons {α : Type} (item : Item α) (d : Drained σ α) : Drained σ α :=
  { d with items := item :: d.items }

/-- Hand the records of the next `n` items to a sink. -/
def Pass.drain {m : Type → Type} [Monad m] {α : Type} (sink : SinkM m σ α) :
    Nat → Pass α → Budget → σ → m (Drained σ α)
  | 0, p, budget, state => return ⟨p, budget, state, [], .ok ()⟩
  | n + 1, p, budget, state =>
    match p.nextShared budget with
    | (none, p, budget) => return ⟨p, budget, state, [], .ok ()⟩
    | (some (.failure f), p, budget) => return (← drain sink n p budget state).cons (.failure f)
    | (some (.record r), p, budget) => do
      match ← sink.write r state with
      | (state, .ok ()) => return (← drain sink n p budget state).cons (.record r)
      | (state, .error e) => return ⟨p, budget, state, [.record r], .error e⟩

/-- What an export leaves behind. -/
structure ExportReport (σ α : Type) where
  sink : σ
  items : List (Item α)
  budget : Budget
  result : Except LedgerError Counts

/-- End an export behind its pass. A sink that took all records is finished. -/
def Drained.finish {m : Type → Type} [Monad m] {α : Type} (sink : SinkM m σ α) (d : Drained σ α) :
    m (ExportReport σ α) := do
  match d.taken with
  | .error e => return ⟨d.sink, d.items, d.budget, .error e⟩
  | .ok () =>
    match ← sink.finish d.sink with
    | (state, .error e) => return ⟨state, d.items, d.budget, .error e⟩
    | (state, .ok ()) => return ⟨state, d.items, d.budget, d.pass.finish⟩

/-- Drain a pass into a sink and finish the sink. -/
def Pass.exportInto {m : Type → Type} [Monad m] {α : Type} (p : Pass α) (sink : SinkM m σ α)
    (state : σ) (budget : Budget) : m (ExportReport σ α) := do
  (← p.drain sink p.enough budget state).finish sink

/-- Drain a pass into a sink that always comes back, and finish the sink. -/
def Pass.exportTo {α : Type} (p : Pass α) (sink : Sink σ α) (state : σ) (budget : Budget) :
    ExportReport σ α := (p.exportInto sink state budget).run

namespace ExportReport

/-- The log line of an export that has come to its end. -/
def finishLine (table : Table) (counts : Counts) : LogLine :=
  .info ("Finished `" ++ table.name ++ "`: " ++ toString counts.produced ++ " record(s), " ++
    toString counts.skipped ++ " skipped")

/-- What an export has logged since its pass began. -/
def log (kind : RecordKind) (r : ExportReport σ kind.Record) : List LogLine :=
  r.items.flatMap (Item.log kind) ++
    match r.result with
    | .ok counts => [finishLine kind.table counts]
    | .error _ => []

/-- What the export of a table has logged, the beginning of its pass included. -/
def tableLog (kind : RecordKind) (start : Option Bytes) (r : ExportReport σ kind.Record) :
    List LogLine :=
  Pass.startLine kind.table start :: r.log kind

end ExportReport

/-- Export the records of a whole table, or from a start key on, into a sink. The result has what
the export left in the sink, unless the pass could not begin. -/
def exportTable (kind : RecordKind) (s : Store) (options : PassOptions) (sink : Sink σ kind.Record)
    (state : σ) : Except LedgerError (ExportReport σ kind.Record) := do
  let p ← Pass.start kind s options
  return p.exportTo sink state none

/-- The key ranges of a sharded export. A start key must have an entry at or behind it; the ranges
below it are left out. -/
def shardRanges (s : Store) (table : Table) (start : Option Bytes) (shards : Nat) :
    Except LedgerError (List KeyRange) :=
  match start with
  | none => .ok (KeyRange.shards shards)
  | some key => do
    match ← s.walk table (some key) with
    | [] => .error (Pass.noEntryFrom table key)
    | .error e :: _ => .error e
    | .ok _ :: _ => return (KeyRange.shards shards).filterMap (·.startingAt key)

/-- The outcome of one shard. -/
structure ShardRun (σ : Type) where
  /-- the sink, unless it could not be made -/
  sink : Option σ
  budget : Budget
  result : Except LedgerError Counts
  log : List LogLine

/-- How the sinks of a sharded export are made and used. -/
structure ShardSinks (σ α : Type) where
  sink : Sink σ α
  /-- the sink of the shard with the given index -/
  make : Nat → Except LedgerError σ

/-- Run the shard with a given index: make its sink, begin its pass, export. -/
def runShard (kind : RecordKind) (s : Store) (sinks : ShardSinks σ kind.Record) (index : Nat)
    (range : KeyRange) (budget : Budget) : ShardRun σ :=
  match sinks.make index with
  | .error e => ⟨none, budget, .error e, []⟩
  | .ok state =>
    match Pass.inRange kind s range.start range.stop none false with
    | .error e => ⟨some state, budget, .error e, []⟩
    | .ok p =>
      let report := p.exportTo sinks.sink state budget
      let doneLines := match report.result with
        | .ok counts =>
          [LogLine.debug ("shard " ++ toString index ++ " done: " ++ counts.inspect)]
        | .error _ => []
      ⟨some report.sink, report.budget, report.result,
        report.tableLog kind range.start ++ doneLines⟩

/-- Run the shards from a given index on. The first one that fails is the last one. -/
def runShards (kind : RecordKind) (s : Store) (sinks : ShardSinks σ kind.Record) :
    Nat → Budget → List KeyRange → List (ShardRun σ)
  | _, _, [] => []
  | index, budget, range :: ranges =>
    let run := runShard kind s sinks index range budget
    match run.result with
    | .ok _ => run :: runShards kind s sinks (index + 1) run.budget ranges
    | .error _ => [run]

/-- What a sharded export leaves behind. -/
structure ShardedReport (σ : Type) where
  runs : List (ShardRun σ)
  result : Except LedgerError Counts
  log : List LogLine

/-- The counts of all shards together, or the error of the one that failed. -/
def totalCounts : List (ShardRun σ) → Except LedgerError Counts
  | [] => .ok {}
  | run :: runs => do return (← run.result) + (← totalCounts runs)

/-- Export a table in shards, on a pool of as many threads. It depends on the system whether a pool
of a number of threads can be built, and if not, why. -/
def exportSharded (kind : RecordKind) (s : Store) (options : PassOptions) (shards : Nat)
    (poolFault? : Nat → Option String) (sinks : ShardSinks σ kind.Record) : ShardedReport σ :=
  match shardRanges s kind.table options.start shards with
  | .error e => ⟨[], .error e, []⟩
  | .ok ranges =>
    let startLine := LogLine.info ("Exporting `" ++ kind.table.name ++ "` in " ++
      toString ranges.length ++ " shard(s) on " ++ toString shards ++ " thread(s)")
    match poolFault? (max shards 1) with
    | some fault => ⟨[], .error (.misuse ("cannot build thread pool: " ++ fault)), [startLine]⟩
    | none =>
      let runs := runShards kind s sinks 0 options.limit ranges
      ⟨runs, totalCounts runs, startLine :: runs.flatMap (·.log)⟩

namespace ShardedReport

/-- The sinks that were made, in the order of their keys. -/
def sinks (r : ShardedReport σ) : List σ := r.runs.filterMap (·.sink)

end ShardedReport

end NanoLedger
