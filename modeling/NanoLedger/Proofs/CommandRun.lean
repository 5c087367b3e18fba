import NanoLedger.Command
import NanoLedger.Proofs.Sharding

/-!
# Runs of the export command

`Command.Feasible` says that nothing but the entries of the ledger can stand in the way of a run:
the arguments make sense, the selected tables exist and have entries from the start key on, and all
files can be made. Such a run succeeds, whatever keys and values the tables hold, and counts as
skipped what makes no record (`Command.run_feasible`). There is one exception. The schema version is
read before any table and outside of any pass, and if its value is cut short, the run ends there
with an error (`Ledger.schemaVersion_eq_error`).

The proof follows the run: the parts that depend on the arguments alone, the export of one table
(`Command.exportKind_feasible`), and by induction the export of all of them
(`Command.exportTables_feasible`).
-/

namespace NanoLedger

/-! ## The schema version -/

namespace MetaEntry

/-- Under the key of the version, 32 bytes are read. -/
theorem decode_versionKey (value : Bytes) : decode versionKeyBytes value =
    ((Layout.octets 32).parse value).map fun v =>
      match word? v with
      | some n => .version n
      | none => .unrecognised (Hex.encode versionKeyBytes) (Hex.encode value) := by
  have hkey : (Layout.octets 32).parse versionKeyBytes = .ok ⟨versionKeyBytes, rfl⟩ := rfl
  have hword : word? ⟨versionKeyBytes, rfl⟩ = some versionKey := by decide +kernel
  rw [decode, hkey]
  simp only [bind, Except.bind, hword, if_true]
  cases (Layout.octets 32).parse value with
  | error e => rfl
  | ok v =>
    simp only [Except.map]
    cases word? v <;> rfl

end MetaEntry

namespace Ledger

/-- The schema version of a ledger cannot be told exactly if its value has less than 32 bytes. -/
theorem schemaVersion_eq_error (l : Ledger) (e : LedgerError) :
    l.schemaVersion = .error e ↔
      (∃ value, l.tables.find? .metadata MetaEntry.versionKeyBytes = some value ∧
        value.length < 32) ∧ e = .truncated := by
  have hget := l.serves_snapshot.get_eq .metadata MetaEntry.versionKeyBytes (by decide)
  rw [schemaVersion, hget]
  cases hvalue : l.tables.find? .metadata MetaEntry.versionKeyBytes with
  | none => simp [bind, Except.bind, pure, Except.pure]
  | some value =>
    simp only [bind, Except.bind, MetaEntry.decode_versionKey, Option.some.injEq, exists_eq_left']
    cases hparse : (Layout.octets 32).parse value with
    | error e' =>
      obtain ⟨hshort, rfl⟩ := ((Layout.octets 32).parse_eq_error value e').1 hparse
      have hlt : value.length < 32 := hshort
      simp [Except.map, hlt, eq_comm]
    | ok v =>
      have hle : 32 ≤ value.length := (Layout.octets 32).size_le_of_parse hparse
      have hnot : ¬ value.length < 32 := Nat.not_lt.2 hle
      simp only [Except.map, hnot, false_and, iff_false]
      cases MetaEntry.word? v <;> exact nofun

end Ledger

/-! ## What a run needs -/

namespace Command

/-- Whether a key option, if it is given, names a start key. -/
def NamesStart : Option String → Option Bytes → Prop
  | none, start => start = none
  | some key, start => ∃ bytes, Hex.decode (Text.trim key) = .ok bytes ∧ start = some bytes

/-- Whether a table option, if it is given, selects tables. -/
def Selects (table : Option String) (ts : List Table) : Prop :=
  (table.getD "all" = "all" ∧ ts = [.accounts, .blocks]) ∨ ∃ t, table = some t.name ∧ ts = [t]

/-- The files that a run makes, if nothing stops it: one for all tables, or one for each shard of
each table. -/
def outputFiles (env : Surroundings) (a : Arguments) (l : Ledger) (start : Option Bytes)
    (ts : List Table) : List String :=
  match a.output, shardCount env a with
  | none, _ => []
  | some path, none => [path]
  | some path, some shards => ts.flatMap fun t =>
    match shardRanges l.snapshot t start shards with
    | .ok ranges => (List.range ranges.length).map (shardPath path t)
    | .error _ => []

/-- A run in whose way nothing but the entries of the ledger can stand. -/
structure Feasible (env : Surroundings) (a : Arguments) (l : Ledger) (start : Option Bytes)
    (ts : List Table) : Prop where
  /-- the ledger opens -/
  opens : (Ledger.atPath env.place (a.filename.getD LedgerFile.defaultName)).result = .ok l
  /-- the key is absent or valid hexadecimal -/
  key : NamesStart a.key start
  start_ne_nil : start ≠ some []
  /-- the selected tables -/
  selects : Selects a.table ts
  exportable : .vote ∉ ts
  /-- each of them exists and has entries from the start key on -/
  reaches : ∀ t ∈ ts, ∃ m, l.tables.table? t = some m ∧ (start = none ∨ m.startingAt start ≠ [])
  /-- shards are asked for only together with an output -/
  output : a.shards ≠ none → a.output ≠ none
  /-- a pool of threads for the shards can be built -/
  pool : ∀ shards, shardCount env a = some shards → env.poolFault? (max shards 1) = none
  /-- all files can be made -/
  writable : ∀ path ∈ outputFiles env a l start ts, env.creationFault? path = none

/-- The counts of a table that is exported: one for each entry from the start key on, as far as the
limit admits them. -/
def tableCounts (l : Ledger) (options : PassOptions) (t : Table) : Counts :=
  match ExportKind.ofTable? t, l.tables.table? t with
  | some kind, some m => Counts.ofItems (Pass.itemsFrom kind.kind l.snapshot m options)
  | _, _ => {}

section
variable {env : Surroundings} {a : Arguments} {l : Ledger} {start : Option Bytes} {ts : List Table}

/-! ## The parts that depend on the arguments -/

theorem NamesStart.passOptions_eq (h : NamesStart a.key start) :
    passOptions a = .ok { start, limit := a.count } := by
  rw [passOptions]
  cases hkey : a.key with
  | none =>
    rw [hkey] at h
    cases h
    rfl
  | some key =>
    rw [hkey] at h
    obtain ⟨bytes, hbytes, rfl⟩ := h
    simp only [PassOptions.ofHexKey, hbytes]
    rfl

theorem Feasible.passOptions_eq (h : Feasible env a l start ts) :
    passOptions a = .ok { start, limit := a.count } := h.key.passOptions_eq

theorem Selects.tables_eq (h : Selects a.table ts) : tables a = .ok ts := by
  rw [tables]
  obtain ⟨hall, rfl⟩ | ⟨t, ht, rfl⟩ := h
  · rw [hall]
    rfl
  · rw [ht]
    cases t <;> rfl

theorem Feasible.tables_eq (h : Feasible env a l start ts) : tables a = .ok ts :=
  h.selects.tables_eq

/-- Whether the files for a table can be made, and a pool of threads to write them can be built. -/
def Target.Takes (env : Surroundings) (l : Ledger) (start : Option Bytes) (t : Table) :
    Target → Prop
  | .single => True
  | .sharded path shards => env.poolFault? (max shards 1) = none ∧
      ∀ ranges, shardRanges l.snapshot t start shards = .ok ranges →
        ∀ i < ranges.length, env.creationFault? (shardPath path t i) = none

theorem Feasible.target_eq (h : Feasible env a l start ts) :
    ∃ target, Command.target env a = .ok target ∧ ∀ t ∈ ts, target.Takes env l start t := by
  have hwritable := h.writable
  rw [outputFiles] at hwritable
  rw [Command.target]
  cases houtput : a.output with
  | none =>
    have hshards : shardCount env a = none := by
      rw [shardCount, Option.map_eq_none_iff]
      exact Decidable.not_not.1 fun hshards => h.output hshards houtput
    rw [hshards]
    exact ⟨.single, rfl, fun _ _ => trivial⟩
  | some path =>
    rw [houtput] at hwritable
    cases hshards : shardCount env a with
    | none =>
      rw [hshards] at hwritable
      refine ⟨.single, ?_, fun _ _ => trivial⟩
      simp only [create, hwritable path (.head _)]
      rfl
    | some shards =>
      rw [hshards] at hwritable
      refine ⟨.sharded path shards, rfl, fun t ht => ⟨h.pool shards hshards, ?_⟩⟩
      intro ranges hranges i hi
      refine hwritable _ (List.mem_flatMap.2 ⟨t, ht, ?_⟩)
      rw [hranges]
      exact List.mem_map.2 ⟨i, List.mem_range.2 hi, rfl⟩

end

end Command

/-! ## The export of one table -/

section
variable {σ : Type} {kind : RecordKind} {s : Store} {sink : Sink σ kind.Record}
  {make : Nat → Except LedgerError σ} {init : σ}

/-- Shards run as if all their sinks began in one state, if those that are asked for do. -/
theorem runShards_fresh (index : Nat) (b : Budget) {ranges : List KeyRange}
    (h : ∀ i < ranges.length, make (index + i) = .ok init) :
    runShards kind s ⟨sink, make⟩ index b ranges =
      runShards kind s (.fresh sink init) index b ranges := by
  induction ranges generalizing index b with
  | nil => rfl
  | cons range ranges ih =>
    have hhead : runShard kind s ⟨sink, make⟩ index range b =
        runShard kind s (.fresh sink init) index range b := by
      have hmake : make index = .ok init := h 0 (Nat.succ_pos _)
      simp only [runShard, ShardSinks.fresh, hmake]
    have htail : ∀ i < ranges.length, make (index + 1 + i) = .ok init := by
      intro i hi
      rw [Nat.add_assoc, Nat.add_comm 1 i]
      exact h (i + 1) (Nat.succ_lt_succ hi)
    simp only [runShards, hhead, ih _ _ htail]

theorem exportSharded_fresh {options : PassOptions} {shards : Nat}
    {poolFault? : Nat → Option String}
    (h : ∀ ranges, shardRanges s kind.table options.start shards = .ok ranges →
      ∀ i < ranges.length, make i = .ok init) :
    exportSharded kind s options shards poolFault? ⟨sink, make⟩ =
      exportSharded kind s options shards poolFault? (.fresh sink init) := by
  rw [exportSharded, exportSharded]
  cases hranges : shardRanges s kind.table options.start shards with
  | error e => rfl
  | ok ranges =>
    have hfresh : runShards kind s ⟨sink, make⟩ 0 options.limit ranges =
        runShards kind s (.fresh sink init) 0 options.limit ranges :=
      runShards_fresh 0 options.limit (by simpa using h ranges hranges)
    simp only [hfresh]

end

namespace Command

/-- A text to which lines can be added without end. -/
def Unlimited (lines : JsonLines) : Prop :=
  ∃ text written, lines = { writer := { text }, written }

section
variable {env : Surroundings} {a : Arguments} {l : Ledger} {options : PassOptions} {target : Target}

/-- Exporting a table that has entries from the start key on succeeds, whatever they hold. -/
theorem exportKind_feasible {kind : ExportKind} {m : KeyMap} {w : Written}
    (hm : l.tables.table? kind.kind.table = some m) (hstart : options.start ≠ some [])
    (hne : options.start = none ∨ m.startingAt options.start ≠ [])
    (htakes : target.Takes env l options.start kind.kind.table) (hw : Unlimited w.lines) :
    ∃ w', exportKind env l options target kind w =
        (w', .ok (Counts.ofItems (Pass.itemsFrom kind.kind l.snapshot m options))) ∧
      w'.log = w.log ∧ Unlimited w'.lines := by
  have h := l.serves_snapshot
  cases target with
  | single =>
    obtain ⟨text, written, hlines⟩ := hw
    have hwalk : l.snapshot.walk kind.kind.table options.start =
        .ok ((m.startingAt options.start).map .ok) := by
      rw [h.walk_eq _ _ hstart, Tables.walk_store hm]
    have hp := Pass.start_eq_along hwalk (by simpa using hne)
    have hexport := exportTable_eq h (Sink.holds_jsonLines_after kind.json text written) hp
    rw [JsonLines.after_nil, ← hlines] at hexport
    let items := Pass.itemsFrom kind.kind l.snapshot m options
    refine ⟨{ w with lines := .after kind.json text written (Item.records items) }, ?_, rfl,
      _, _, rfl⟩
    simp only [exportKind, hexport, items]
  | sharded path shards =>
    let make (index : Nat) : Except LedgerError JsonLines := do
      create env (shardPath path kind.kind.table index)
      return {}
    have hmake : ∀ ranges,
        shardRanges l.snapshot kind.kind.table options.start shards = .ok ranges →
        ∀ i < ranges.length, make i = .ok {} := by
      intro ranges hranges i hi
      simp only [make, create, htakes.2 ranges hranges i hi]
      rfl
    have hfresh : exportSharded kind.kind l.snapshot options shards env.poolFault?
          ⟨.jsonLines kind.json, make⟩ =
        exportSharded kind.kind l.snapshot options shards env.poolFault?
          (.fresh (.jsonLines kind.json) {}) :=
      exportSharded_fresh hmake
    obtain ⟨xss, hitems, -, hresult⟩ :=
      exportSharded_eq h hm (Sink.holds_jsonLines kind.json) hstart hne htakes.1
    rw [hitems] at hresult
    refine ⟨_, Prod.ext rfl ?_, rfl, hw⟩
    show (exportSharded kind.kind l.snapshot options shards env.poolFault?
      ⟨.jsonLines kind.json, make⟩).result = _
    rw [hfresh]
    exact hresult

/-- Exporting tables that have entries from the start key on succeeds, and logs a line for each. -/
theorem exportTables_feasible {ts : List Table} {w : Written} (hvote : .vote ∉ ts)
    (hstart : options.start ≠ some [])
    (hreaches : ∀ t ∈ ts, ∃ m, l.tables.table? t = some m ∧
      (options.start = none ∨ m.startingAt options.start ≠ []))
    (htakes : ∀ t ∈ ts, target.Takes env l options.start t) (hw : Unlimited w.lines) :
    ∃ w', exportTables env l options target ts w = (w', .ok ()) ∧
      w'.log = w.log ++ ts.map fun t => exportedLine t (tableCounts l options t) := by
  induction ts generalizing w with
  | nil => exact ⟨w, rfl, (List.append_nil _).symm⟩
  | cons t ts ih =>
    obtain ⟨kind, hkind⟩ := ExportKind.exists_ofTable? fun h : t = .vote => hvote (h ▸ .head _)
    obtain rfl := ExportKind.table_of_ofTable? hkind
    obtain ⟨m, hm, hne⟩ := hreaches _ (.head _)
    obtain ⟨w₁, hexport, hlog, hw₁⟩ :=
      exportKind_feasible hm hstart hne (htakes _ (.head _)) hw
    have hcounts : tableCounts l options kind.kind.table =
        Counts.ofItems (Pass.itemsFrom kind.kind l.snapshot m options) := by
      simp only [tableCounts, hkind, hm]
    let line := exportedLine kind.kind.table (tableCounts l options kind.kind.table)
    have hw₂ : Unlimited { w₁ with log := w₁.log ++ [line] }.lines := hw₁
    obtain ⟨w', hrest, hlog'⟩ := ih (fun h => hvote (.tail _ h))
      (fun t ht => hreaches t (.tail _ ht)) (fun t ht => htakes t (.tail _ ht)) hw₂
    refine ⟨w', ?_, ?_⟩
    · simp only [exportTables, hkind, hexport, ← hcounts]
      exact hrest
    · rw [hlog', hlog, List.map_cons, List.append_assoc]
      rfl

/-! ## The run as a whole -/

variable {start : Option Bytes} {ts : List Table}

/-- A run in whose way only the entries of the ledger can stand. It succeeds, with a line for each
table that tells how many entries made a record and how many were skipped, unless the value of the
schema version has less than 32 bytes; then it ends with an error before it writes anything. An
entry is skipped for a truncated record, an unknown kind of block or a broken reference only. -/
theorem run_feasible (h : Feasible env a l start ts) :
    (∀ value, l.tables.find? .metadata MetaEntry.versionKeyBytes = some value →
      value.length < 32 → run env a = failure [] .truncated) ∧
    ((∀ value, l.tables.find? .metadata MetaEntry.versionKeyBytes = some value →
        32 ≤ value.length) →
      ∃ version, l.schemaVersion = .ok version ∧ (run env a).exit = 0 ∧
        (run env a).log = versionLines version ++
          ts.map fun t => exportedLine t (tableCounts l { start, limit := a.count } t)) ∧
    ∀ (kind : RecordKind) (e : Entry), SkipsOnly (kind.read l.snapshot e) := by
  refine ⟨?_, ?_, l.serves_snapshot.skipsOnly_read⟩
  · intro value hvalue hshort
    have hversion := (l.schemaVersion_eq_error _).2 ⟨⟨value, hvalue, hshort⟩, rfl⟩
    simp only [run, h.opens, hversion]
  · intro hlong
    cases hversion : l.schemaVersion with
    | error e =>
      obtain ⟨⟨value, hvalue, hshort⟩, -⟩ := (l.schemaVersion_eq_error e).1 hversion
      exact absurd hshort (Nat.not_lt.2 (hlong value hvalue))
    | ok version =>
      obtain ⟨target, htarget, htakes⟩ := h.target_eq
      let options : PassOptions := { start, limit := a.count }
      let w : Written := { log := versionLines version }
      have hw : Unlimited w.lines := ⟨"", 0, rfl⟩
      obtain ⟨w', hexport, hlog⟩ : ∃ w', exportTables env l options target ts w = (w', .ok ()) ∧
          w'.log = w.log ++ ts.map fun t => exportedLine t (tableCounts l options t) :=
        exportTables_feasible h.exportable h.start_ne_nil h.reaches htakes hw
      have hrun : run env a = finished a target w' (.ok ()) := by
        simp only [run, h.opens, hversion, h.passOptions_eq, htarget, h.tables_eq, bind,
          Except.bind, pure, Except.pure]
        exact congrArg (fun r => finished a target r.1 r.2) hexport
      refine ⟨version, rfl, ?_, ?_⟩
      · rw [hrun]
        rfl
      · rw [hrun]
        exact hlog

/-! ## Ledgers in one place -/

/-- Surroundings in which every path leads to a ledger with the given tables, and every file can be
made and every pool of threads built. -/
def Surroundings.holding (ts : Tables) : Surroundings where
  place _ := .file (some ⟨ts, []⟩)
  creationFault? _ := none
  poolFault? _ := none
  processors := 1

/-- The export of a single table that exists is feasible. -/
theorem feasible_holding {tables : Tables} {t : Table} {m : KeyMap} (hm : tables.table? t = some m)
    (ht : t ≠ .vote) :
    Feasible (.holding tables) { table := some t.name } ⟨tables⟩ none [t] where
  opens := by
    have hopen : ((⟨tables, []⟩ : LedgerFile).openTables Table.all).1 = .ok () :=
      LedgerFile.openTables_of_plainNames rfl Table.all
    simp only [Ledger.atPath, LedgerFile.locate, Surroundings.holding]
    rw [← Prod.eta (LedgerFile.openTables _ _), hopen]
  key := rfl
  start_ne_nil := nofun
  selects := .inr ⟨t, rfl, rfl⟩
  exportable := by simpa using ht.symm
  reaches := by
    intro u hu
    cases List.mem_singleton.1 hu
    exact ⟨m, hm, .inl rfl⟩
  output := nofun
  pool := nofun
  writable := nofun

/-- The export of a table of weights, one of which is cut short, succeeds. -/
theorem run_feasible_twoWeights :
    Feasible (.holding Ledger.twoWeights.tables) { table := some "online_weight" } .twoWeights none
        [.onlineWeight] ∧
      (run (.holding Ledger.twoWeights.tables) { table := some "online_weight" }).exit = 0 := by
  have h : Feasible (.holding Ledger.twoWeights.tables) { table := some "online_weight" }
      .twoWeights none [.onlineWeight] := feasible_holding (t := .onlineWeight) rfl nofun
  obtain ⟨-, hruns, -⟩ := run_feasible h
  obtain ⟨version, -, hexit, -⟩ := hruns nofun
  exact ⟨h, hexit⟩

/-- The tables of a ledger whose schema version is a single byte. -/
def shortVersion : Tables := Tables.empty.insert .metadata MetaEntry.versionKeyBytes [0]

/-- The export of the table that holds it fails. -/
theorem run_shortVersion :
    Feasible (.holding shortVersion) { table := some "meta" } ⟨shortVersion⟩ none [.metadata] ∧
      (run (.holding shortVersion) { table := some "meta" }).exit = 1 :=
  ⟨feasible_holding (t := .metadata) rfl nofun, rfl⟩

end

end Command

end NanoLedger
