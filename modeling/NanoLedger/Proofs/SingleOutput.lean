import NanoLedger.Proofs.CommandRun
import NanoLedger.Proofs.Visits

/-!
# The one output of a run

Without shards a run of the export command writes all its tables into one output. What stands there
in the end is told table by table: `Ledger.Writes` relates a table to the lines of the records that
a pass of its own gives, and `Ledger.Stuck` says why such a pass cannot begin. A run writes the
texts of its tables one after another, each with the whole limit, until it is through with them or
stuck at one (`Command.run_single`).

The step is the export of one table behind what was written before (`exportTable_receives`), and by
induction over the tables the text grows by the text of each (`Command.exportTables_delivers`). That
the sink is flushed behind each table is part of what it receives (`Ledger.Delivers`).
-/

namespace NanoLedger

/-! ## What a pass gives -/

namespace Pass

variable {α : Type}

/-- The items that a pass gives until it is over. -/
def given (p : Pass α) : List (Item α) := (p.run p.enough).1.filterMap id

theorem given_eq_history (p : Pass α) : p.given = p.history.map (·.2) := by
  rw [given, run_eq_visits, List.filterMap_append, List.filterMap_map]
  simp [history]

/-- A running pass gives the items that it has in prospect. -/
theorem given_eq_prospect {p : Pass α} (hrun : p.progress = .running) :
    p.given = (p.prospect none).items := by
  rw [given_eq_history, history, items_visits hrun]
  exact List.take_of_length_le (Nat.le_succ_of_le (length_prospect_le p none))

end Pass

section
variable {σ : Type} {kind : RecordKind} {s : Store} {ts : Tables} {sink : Sink σ kind.Record}

/-- A table whose pass begins leaves in a sink what receiving the records of the pass does, and its
export succeeds. -/
theorem exportTable_receives (h : s.Serves ts) {options : PassOptions}
    (hstart : options.start ≠ some []) {p : Pass kind.Record}
    (hp : Pass.start kind s options = .ok p) {before after : σ}
    (hs : sink.Receives (Item.records p.given) before after) :
    exportTable kind s options sink before =
      .ok ⟨after, p.given, none, .ok (Counts.ofItems p.given)⟩ := by
  rcases Pass.start_tables_cases kind s ts options (h.walk_eq kind.table _ hstart) with
    ⟨-, herror⟩ | ⟨m, -, ⟨_, -, -, herror⟩ | ⟨-, hok⟩⟩
  · cases herror.symm.trans hp
  · cases herror.symm.trans hp
  · cases hok.symm.trans hp
    have hprospect := Pass.prospect_along (h.skipsOnly_read kind) (m.startingAt options.start)
      options.limit
    rw [Pass.given_eq_prospect rfl] at hs ⊢
    rw [exportTable, hok]
    simp only [bind, Except.bind, Pass.exportTo_eq rfl hs, hprospect]
    simp [pure, Except.pure, Budget.after, Pass.report, Pass.along]

end

/-! ## Tables and their texts -/

namespace Ledger

/-- The text of a table: the lines of the records that a pass of its own gives. -/
inductive Writes (l : Ledger) (options : PassOptions) : Table → String → Prop
  | lines {t : Table} {kind : ExportKind} {p : Pass kind.kind.Record} :
      ExportKind.ofTable? t = some kind → Pass.start kind.kind l.snapshot options = .ok p →
      Writes l options t (JsonLines.text kind.json (Item.records p.given))

/-- The texts of tables, one after another. -/
inductive WritesAll (l : Ledger) (options : PassOptions) : List Table → String → Prop
  | nil : WritesAll l options [] ""
  | cons {t : Table} {ts : List Table} {text rest : String} : l.Writes options t text →
      WritesAll l options ts rest → WritesAll l options (t :: ts) (text ++ rest)

/-- Why no pass for the export of a table begins: there is none for votes, the table is missing, or
all its keys lie below the start key. -/
inductive Stuck (l : Ledger) (start : Option Bytes) : Table → LedgerError → Prop
  | votes : Stuck l start .vote (.misuse "the vote table cannot be exported")
  | missing {t : Table} : t ≠ .vote → l.tables.table? t = none → Stuck l start t t.missing
  | behind {t : Table} {key : Bytes} : t ≠ .vote → (l.tables.table? t).isSome →
      start = some key → (∀ k v, l.tables.find? t k = some v → k < key) →
      Stuck l start t (Pass.noEntryFrom t key)

/-- How tables get from one state of the output to another: the sink receives the records of each
table, and is flushed behind the last one. -/
inductive Delivers (l : Ledger) (options : PassOptions) :
    List Table → JsonLines → JsonLines → Prop
  | nil (lines : JsonLines) : Delivers l options [] lines lines
  | cons {t : Table} {ts : List Table} {kind : ExportKind} {p : Pass kind.kind.Record}
      {before mid after : JsonLines} : ExportKind.ofTable? t = some kind →
      Pass.start kind.kind l.snapshot options = .ok p →
      (Sink.jsonLines kind.json).Receives (Item.records p.given) before mid →
      Delivers l options ts mid after → Delivers l options (t :: ts) before after

variable {l : Ledger} {options : PassOptions} {t : Table}

/-- Beside votes, a run is stuck at a table that is missing or has no entries from the start key
on. -/
theorem stuck_iff {start : Option Bytes} {e : LedgerError} (hvote : t ≠ .vote) :
    l.Stuck start t e ↔ (l.tables.table? t = none ∧ e = t.missing) ∨
      ∃ m key, l.tables.table? t = some m ∧ start = some key ∧ m.startingAt (some key) = [] ∧
        e = Pass.noEntryFrom t key := by
  constructor
  · intro h
    cases h with
    | votes => exact absurd rfl hvote
    | missing _ hnone => exact .inl ⟨hnone, rfl⟩
    | @behind _ key _ hsome hkey hbelow =>
      obtain ⟨m, hm⟩ := Option.isSome_iff_exists.1 hsome
      refine .inr ⟨m, key, hm, hkey, (Pass.startingAt_eq_nil hm _).2 ?_, rfl⟩
      simpa only [atOrAfter_some, List.not_le] using hbelow
  · rintro (⟨hnone, rfl⟩ | ⟨m, key, hm, hkey, hnil, rfl⟩)
    · exact .missing hvote hnone
    · refine .behind hvote (hm ▸ rfl) hkey ?_
      simpa only [atOrAfter_some, List.not_le] using (Pass.startingAt_eq_nil hm (some key)).1 hnil

/-- A pass for the export of a table does not begin exactly if the run is stuck there. -/
theorem start_eq_error (hstart : options.start ≠ some []) {kind : ExportKind}
    (hkind : ExportKind.ofTable? t = some kind) (e : LedgerError) :
    Pass.start kind.kind l.snapshot options = .error e ↔ l.Stuck options.start t e := by
  have hvote : t ≠ .vote := by
    rintro rfl
    cases hkind
  have hcases := Pass.start_tables_cases kind.kind l.snapshot l.tables options
    (l.serves_snapshot.walk_eq kind.kind.table _ hstart)
  rw [ExportKind.table_of_ofTable? hkind] at hcases
  rw [stuck_iff hvote]
  rcases hcases with ⟨hnone, hs⟩ | ⟨m, hm, ⟨key, hkey, hnil, hs⟩ | ⟨hne, hs⟩⟩
  · rw [hs, hnone]
    constructor
    · rintro ⟨⟩
      exact .inl ⟨rfl, rfl⟩
    · rintro (⟨-, rfl⟩ | ⟨_, _, ⟨⟩, -⟩)
      rfl
  · rw [hs, hm]
    constructor
    · rintro ⟨⟩
      exact .inr ⟨m, key, rfl, hkey, hnil, rfl⟩
    · rintro (⟨⟨⟩, -⟩ | ⟨_, key', -, hkey', -, rfl⟩)
      cases hkey.symm.trans hkey'
      rfl
  · rw [hs, hm]
    constructor
    · exact nofun
    · rintro (⟨⟨⟩, -⟩ | ⟨_, key, ⟨⟩, hkey, hnil, -⟩)
      rw [hkey] at hne
      exact hne.elim nofun fun hne => absurd hnil hne

/-- A table has a text exactly if the run is not stuck there. -/
theorem exists_writes_iff (hstart : options.start ≠ some []) :
    (∃ text, l.Writes options t text) ↔ ∀ e, ¬ l.Stuck options.start t e := by
  constructor
  · rintro ⟨_, ⟨hkind, hp⟩⟩ e hstuck
    cases hp.symm.trans ((start_eq_error hstart hkind e).2 hstuck)
  · intro hnot
    have hvote : t ≠ .vote := by
      rintro rfl
      exact hnot _ .votes
    obtain ⟨kind, hkind⟩ := ExportKind.exists_ofTable? hvote
    cases hp : Pass.start kind.kind l.snapshot options with
    | error e => exact absurd ((start_eq_error hstart hkind e).1 hp) (hnot e)
    | ok p => exact ⟨_, .lines hkind hp⟩

/-- Tables all have texts, or the run is stuck at the first one that has none. -/
theorem writesAll_or_stuck (hstart : options.start ≠ some []) (ts : List Table) :
    ∃ done text, l.WritesAll options done text ∧
      (ts = done ∨ ∃ t rest e, ts = done ++ t :: rest ∧ l.Stuck options.start t e) := by
  induction ts with
  | nil => exact ⟨[], "", .nil, .inl rfl⟩
  | cons t ts ih =>
    by_cases hstuck : ∃ e, l.Stuck options.start t e
    · obtain ⟨e, hstuck⟩ := hstuck
      exact ⟨[], "", .nil, .inr ⟨t, ts, e, rfl, hstuck⟩⟩
    · obtain ⟨text, htext⟩ := (exists_writes_iff hstart).2 (not_exists.1 hstuck)
      obtain ⟨done, rest, hdone, hts⟩ := ih
      refine ⟨t :: done, text ++ rest, .cons htext hdone, ?_⟩
      rcases hts with rfl | ⟨u, us, e, rfl, hu⟩
      · exact .inl rfl
      · exact .inr ⟨u, us, e, rfl, hu⟩

/-- An output that takes everything takes the texts of tables, one behind another. -/
theorem WritesAll.delivers {ts : List Table} {text : String} (h : l.WritesAll options ts text)
    (before : String) (written : Nat) :
    ∃ lines, l.Delivers options ts { writer := { text := before }, written } lines ∧
      lines.writer.text = before ++ text := by
  induction h generalizing before written with
  | nil => exact ⟨_, .nil _, (String.append_empty).symm⟩
  | @cons t ts text rest htext _ ih =>
    obtain ⟨hkind, hp⟩ := htext
    rename_i kind p
    let rs := Item.records p.given
    have hreceives := Sink.holds_jsonLines_after kind.json before written rs
    rw [JsonLines.after_nil] at hreceives
    obtain ⟨lines, hlines, htext⟩ :=
      ih (before ++ JsonLines.text kind.json rs) (written + rs.length)
    exact ⟨lines, .cons hkind hp hreceives hlines, htext.trans (String.append_assoc ..)⟩

end Ledger

/-! ## The run -/

namespace Command

variable {env : Surroundings} {a : Arguments} {l : Ledger} {options : PassOptions}

/-- Tables that the output takes are exported into it, one behind another. -/
theorem exportTables_delivers (env : Surroundings) (hstart : options.start ≠ some [])
    {done : List Table} {before after : JsonLines} (h : l.Delivers options done before after)
    (rest : List Table) (w : Written) (hw : w.lines = before) :
    ∃ log, exportTables env l options .single (done ++ rest) w =
      exportTables env l options .single rest { w with lines := after, log } := by
  induction h generalizing w with
  | nil lines =>
    subst hw
    exact ⟨w.log, rfl⟩
  | @cons t ts kind p before mid after hkind hp hreceives _ ih =>
    subst hw
    have hexport := exportTable_receives l.serves_snapshot hstart hp hreceives
    let line := exportedLine t (Counts.ofItems p.given)
    obtain ⟨log, hrest⟩ := ih { w with lines := mid, log := w.log ++ [line] } rfl
    refine ⟨log, ?_⟩
    simp only [List.cons_append, exportTables, hkind, exportKind, hexport]
    exact hrest

/-- Where a run is stuck, the output is left as it is. -/
theorem exportTables_stuck (hstart : options.start ≠ some []) {t : Table} {e : LedgerError}
    (h : l.Stuck options.start t e) (rest : List Table) (w : Written) :
    exportTables env l options .single (t :: rest) w = (w, .error e) := by
  rw [exportTables]
  cases hkind : ExportKind.ofTable? t with
  | none =>
    cases t with
    | vote =>
      cases h with
      | votes => rfl
      | missing hvote | behind hvote => exact absurd rfl hvote
    | accounts | blocks | confirmationHeight | pending | frontiers | onlineWeight | peers | metadata
    | unchecked => cases hkind
  | some kind =>
    have hp := (Ledger.start_eq_error hstart hkind e).2 h
    simp only [exportKind, exportTable_eq_error.2 hp]

/-! ## The run as a whole -/

/-- What stands where a run writes to, and that nothing stands elsewhere: the given text in the
output file, or on standard output if there is none. -/
def Outcome.Prints (o : Outcome) : Option String → String → Prop
  | none, text => o.stdout = text ∧ o.files = []
  | some path, text => o.stdout = "" ∧ o.files = [(path, text)]

/-- A run without shards over a ledger that opens and whose schema version is no obstacle, with a
start key that is not empty if there is one. -/
structure IntoOne (env : Surroundings) (a : Arguments) (l : Ledger) (start : Option Bytes) :
    Prop where
  opens : (Ledger.atPath env.place (a.filename.getD LedgerFile.defaultName)).result = .ok l
  /-- the schema version can be read, or there is none -/
  version : ∃ version, l.schemaVersion = .ok version
  shards : a.shards = none
  key : NamesStart a.key start
  start_ne_nil : start ≠ some []

/-- A table option that selects no tables names none. -/
theorem tables_eq_error (h : ∀ ts, ¬ Selects a.table ts) : ∃ e, tables a = .error e := by
  cases hname : a.table with
  | none => exact absurd (.inl ⟨by rw [hname]; rfl, rfl⟩) (h _)
  | some name =>
    have hall : name ≠ "all" := by
      rintro rfl
      exact h _ (.inl ⟨by rw [hname]; rfl, rfl⟩)
    have hnone : Table.ofName? name = none := by
      cases ht : Table.ofName? name with
      | none => rfl
      | some t =>
        have heq : t.name = name := by simpa using List.find?_some ht
        exact absurd (.inr ⟨t, by rw [hname, heq], rfl⟩) (h _)
    refine ⟨.noTable name, ?_⟩
    simp only [tables, hname, Option.getD_some]
    rw [Table.ofName, hnone]
    rfl

/-- What a run that writes into one output prints is the text that its tables leave there. -/
theorem prints_finished (w : Written) (hw : w.shardFiles = []) (result : Except LedgerError Unit) :
    (finished a .single w result).Prints a.output w.lines.writer.text := by
  cases houtput : a.output <;> cases result <;> simp [finished, Outcome.Prints, houtput, hw]

variable {start : Option Bytes}

theorem IntoOne.target_eq (h : IntoOne env a l start)
    (hcreate : ∀ path ∈ a.output, env.creationFault? path = none) :
    target env a = .ok .single := by
  rw [target, shardCount, h.shards, Option.map_none]
  cases houtput : a.output with
  | none => rfl
  | some path =>
    simp only [create, hcreate path houtput]
    rfl

/-- A run whose output can be made gets as far as its tables. -/
theorem IntoOne.run_eq (h : IntoOne env a l start)
    (hcreate : ∀ path ∈ a.output, env.creationFault? path = none) :
    ∃ log, run env a = match tables a with
      | .error e => finished a .single { log } (.error e)
      | .ok ts =>
        let (w, result) := exportTables env l { start, limit := a.count } .single ts { log }
        finished a .single w result := by
  obtain ⟨version, hversion⟩ := h.version
  refine ⟨versionLines version, ?_⟩
  cases htables : tables a <;>
    simp only [run, h.opens, hversion, h.key.passOptions_eq, h.target_eq hcreate, htables, bind,
      Except.bind, pure, Except.pure]

/-- A run whose output cannot be made writes nothing. -/
theorem IntoOne.run_of_creationFault (h : IntoOne env a l start) {path : String} {fault : IoFault}
    (houtput : a.output = some path) (hfault : env.creationFault? path = some fault) :
    ∃ log e, run env a = failure log e := by
  obtain ⟨version, hversion⟩ := h.version
  have htarget : ∃ e, target env a = .error e := by
    simp only [target, houtput, shardCount, h.shards, Option.map_none, create, hfault]
    exact ⟨_, rfl⟩
  obtain ⟨e, he⟩ := htarget
  refine ⟨versionLines version, e, ?_⟩
  simp only [run, h.opens, hversion, h.key.passOptions_eq, he, bind, Except.bind]

/-- The texts of the selected tables stand in the output one behind another, up to the first table
where the run is stuck. -/
theorem IntoOne.run_selects (h : IntoOne env a l start)
    (hcreate : ∀ path ∈ a.output, env.creationFault? path = none) {ts : List Table}
    (hts : Selects a.table ts) :
    let options : PassOptions := { start, limit := a.count }
    ∃ done text lines, l.WritesAll options done text ∧ l.Delivers options done {} lines ∧
      lines.writer.text = text ∧ (run env a).Prints a.output text ∧
      (ts = done ∧ (run env a).exit = 0 ∨
        ∃ t rest e, ts = done ++ t :: rest ∧ l.Stuck start t e ∧ (run env a).exit = 1 ∧
          (run env a).log.getLast? = some (.error e.text)) := by
  intro options
  obtain ⟨log₀, hrun⟩ := h.run_eq hcreate
  have hstart : options.start ≠ some [] := h.start_ne_nil
  obtain ⟨done, text, hdone, hend⟩ := Ledger.writesAll_or_stuck hstart ts
  obtain ⟨lines, hlines, htext⟩ := hdone.delivers "" 0
  rw [String.empty_append] at htext
  refine ⟨done, text, lines, hdone, hlines, htext, ?_⟩
  rw [hts.tables_eq] at hrun
  have hexport := exportTables_delivers env hstart hlines
  rcases hend with rfl | ⟨t, rest, e, rfl, hstuck⟩
  · obtain ⟨log, hall⟩ := hexport [] { log := log₀ } rfl
    rw [List.append_nil, exportTables] at hall
    simp only [options, hall] at hrun
    rw [hrun, ← htext]
    exact ⟨prints_finished _ rfl _, .inl ⟨rfl, rfl⟩⟩
  · obtain ⟨log, hfirst⟩ := hexport (t :: rest) { log := log₀ } rfl
    rw [exportTables_stuck hstart hstuck] at hfirst
    simp only [options, hfirst] at hrun
    rw [hrun, ← htext]
    exact ⟨prints_finished _ rfl _, .inr ⟨t, rest, e, rfl, hstuck, rfl, List.getLast?_concat⟩⟩

/-- A run writes the texts of its tables one behind another into its one output, each table with the
whole limit. It ends well behind the last table, or with an error at the first one where it is
stuck, and what was written before is then complete. Each table is written whole into the sink,
which is then flushed, whatever the sink is. -/
theorem run_single (h : IntoOne env a l start) :
    let options : PassOptions := { start, limit := a.count }
    let o := run env a
    (∀ t, (∃ text, l.Writes options t text) ↔ ∀ e, ¬ l.Stuck start t e) ∧
    (∀ (t : Table) (kind : ExportKind) (p : Pass kind.kind.Record),
      ExportKind.ofTable? t = some kind → Pass.start kind.kind l.snapshot options = .ok p →
      ∀ (σ : Type) (sink : Sink σ kind.kind.Record) (before after : σ),
        sink.Receives (Item.records p.given) before after →
        exportTable kind.kind l.snapshot options sink before =
          .ok ⟨after, p.given, none, .ok (Counts.ofItems p.given)⟩) ∧
    ((∀ path ∈ a.output, env.creationFault? path = none) →
      (∀ ts, Selects a.table ts → ∃ done text lines, l.WritesAll options done text ∧
        l.Delivers options done {} lines ∧ lines.writer.text = text ∧ o.Prints a.output text ∧
        (ts = done ∧ o.exit = 0 ∨ ∃ t rest e, ts = done ++ t :: rest ∧ l.Stuck start t e ∧
          o.exit = 1 ∧ o.log.getLast? = some (.error e.text))) ∧
      ((∀ ts, ¬ Selects a.table ts) → o.exit = 1 ∧ o.Prints a.output "")) ∧
    ∀ path fault, a.output = some path → env.creationFault? path = some fault →
      o.exit = 1 ∧ o.stdout = "" ∧ o.files = [] := by
  intro options o
  refine ⟨fun t => Ledger.exists_writes_iff h.start_ne_nil, ?_, ?_, ?_⟩
  · intro t kind p _ hp σ sink before after hreceives
    exact exportTable_receives l.serves_snapshot h.start_ne_nil hp hreceives
  · intro hcreate
    refine ⟨fun ts hts => h.run_selects hcreate hts, fun hnone => ?_⟩
    obtain ⟨log, hrun⟩ := h.run_eq hcreate
    obtain ⟨e, he⟩ := tables_eq_error hnone
    rw [he] at hrun
    simp only [o, hrun]
    exact ⟨rfl, prints_finished _ rfl _⟩
  · intro path fault houtput hfault
    obtain ⟨log, e, hrun⟩ := h.run_of_creationFault houtput hfault
    simp only [o, hrun]
    exact ⟨rfl, rfl, rfl⟩

/-- Two accounts, and no table of blocks. -/
def twoAccounts : Ledger :=
  ⟨(Tables.empty.insert .accounts (List.replicate 32 1) (List.replicate 128 0)).insert .accounts
    (List.replicate 32 2) (List.replicate 128 0)⟩

/-- The export of all tables of a ledger without blocks, one record of each, leaves the line of the
first account in the output file and fails at the blocks. -/
theorem run_single_twoAccounts :
    let env := Surroundings.holding twoAccounts.tables
    let a : Arguments := { count := some 1, output := some "records" }
    IntoOne env a twoAccounts none ∧
      ∃ p : Pass ExportKind.account.kind.Record,
        Pass.start ExportKind.account.kind twoAccounts.snapshot { limit := some 1 } = .ok p ∧
        (Item.records p.given).length = 1 ∧
        (run env a).Prints (some "records")
          (JsonLines.text ExportKind.account.json (Item.records p.given)) ∧
        (run env a).exit = 1 ∧
        (run env a).log.getLast? = some (.error Table.blocks.missing.text) := by
  intro env a
  have h : IntoOne env a twoAccounts none :=
    { opens := (feasible_holding (t := .accounts) rfl nofun).opens
      version := ⟨none, rfl⟩
      shards := rfl
      key := rfl
      start_ne_nil := nofun }
  have hblocks : twoAccounts.Stuck none .blocks Table.blocks.missing := .missing nofun rfl
  obtain ⟨hwrites, -, hruns, -⟩ := run_single h
  obtain ⟨done, text, lines, hdone, -, -, hprints, hend⟩ :=
    (hruns (by rintro _ ⟨⟩; rfl)).1 [.accounts, .blocks] (.inl ⟨rfl, rfl⟩)
  have haccounts := (hwrites .accounts).1 ⟨_, .lines rfl rfl⟩
  refine ⟨h, ?_⟩
  rcases hend with ⟨rfl, -⟩ | ⟨t, rest, e, hts, hstuck, hexit, hlog⟩
  · obtain _ | ⟨-, _ | ⟨hfalse, -⟩⟩ := hdone
    exact absurd hblocks ((hwrites .blocks).1 ⟨_, hfalse⟩ _)
  · cases hdone with
    | nil =>
      cases hts
      exact absurd hstuck (haccounts e)
    | cons htext hrest =>
      cases hrest with
      | cons =>
        have hlength := congrArg List.length hts
        simp at hlength
      | nil =>
        cases hts
        have hvote : Table.blocks ≠ .vote := nofun
        obtain rfl : e = Table.blocks.missing := by
          obtain ⟨-, rfl⟩ | ⟨_, _, hm, -⟩ := (Ledger.stuck_iff hvote).1 hstuck
          · rfl
          · cases hm
        obtain ⟨hkind, hp⟩ := htext
        cases hkind
        cases hp
        rw [String.append_empty] at hprints
        exact ⟨_, rfl, by decide +kernel, hprints, hexit, hlog⟩

end Command

end NanoLedger
