import NanoLedger.Proofs.HexText
import NanoLedger.Proofs.Sharding
import NanoLedger.Proofs.Visits

/-!
# Keys in hexadecimal

A start key is read from what trimming leaves of a text (`PassOptions.ofHexKey_eq_ok`), and that is
the middle of the text, without the blank characters around it (`Text.trims_trim`,
`Text.Trims.trim_eq`). What a failure prints in front of its first colon is such a text for its own
key (`DecodeFailure.exists_printed`).

A call of a pass that gives a failure has met it at an entry of the walk (`Pass.nextShared_keeps`),
and so has a run of calls, whatever budgets they find (`Pass.metAt_of_mem_answers`). Over a store
whose walks begin at the key that they are given (`Store.Seeks`), a pass from the key of the failure
comes to the same entry first and makes the same of it (`Pass.start_at_failure`). Tables in memory
and ledgers are such stores, also where lookups fail or walks break off.
-/

namespace NanoLedger

/-! ## Blank characters around a text -/

namespace Text

/-- Whether a text has the given one in the middle, which no blank character begins or ends, and
blank characters around it. -/
def Trims (text middle : String) : Prop :=
  ∃ before after : String, text = before ++ middle ++ after ∧
    (∀ c ∈ before.toList, isBlank c) ∧ (∀ c ∈ after.toList, isBlank c) ∧
    (∀ c ∈ middle.toList.head?, isBlank c = false) ∧
    ∀ c ∈ middle.toList.getLast?, isBlank c = false

theorem isBlank_of_mem_takeWhile {cs : List Char} {c : Char} (h : c ∈ cs.takeWhile isBlank) :
    isBlank c :=
  List.all_eq_true.1 List.all_takeWhile c h

theorem not_isBlank_head_dropWhile {cs : List Char} {c : Char}
    (h : c ∈ (cs.dropWhile isBlank).head?) : isBlank c = false := by
  have hhead := List.head?_dropWhile_not isBlank cs
  rw [Option.mem_def.1 h] at hhead
  simpa using hhead

/-- Trimming leaves the middle of a text. -/
theorem trims_trim (text : String) : Trims text (trim text) := by
  let front := text.toList.dropWhile isBlank
  let back := front.reverse.dropWhile isBlank
  have hfront : text.toList = text.toList.takeWhile isBlank ++ front :=
    List.takeWhile_append_dropWhile.symm
  have hback : front = back.reverse ++ (front.reverse.takeWhile isBlank).reverse := by
    rw [← List.reverse_append, List.takeWhile_append_dropWhile, List.reverse_reverse]
  have htrim : (trim text).toList = back.reverse := String.toList_ofList
  refine ⟨.ofList (text.toList.takeWhile isBlank),
    .ofList (front.reverse.takeWhile isBlank).reverse, ?_, ?_, ?_, ?_, ?_⟩
  · rw [← String.toList_inj]
    simp only [String.toList_append, String.toList_ofList, htrim]
    rw [List.append_assoc, ← hback]
    exact hfront
  · rw [String.toList_ofList]
    exact fun c => isBlank_of_mem_takeWhile
  · rw [String.toList_ofList]
    exact fun c hc => isBlank_of_mem_takeWhile (List.mem_reverse.1 hc)
  · intro c hc
    rw [htrim] at hc
    have hhead : c ∈ front.head? := by
      rw [hback, Option.mem_def, List.head?_append, Option.mem_def.1 hc]
      rfl
    exact not_isBlank_head_dropWhile hhead
  · intro c hc
    rw [htrim, List.getLast?_reverse] at hc
    exact not_isBlank_head_dropWhile hc

theorem dropWhile_isBlank_of_head {cs : List Char} (h : ∀ c ∈ cs.head?, isBlank c = false) :
    cs.dropWhile isBlank = cs := by
  cases cs with
  | nil => rfl
  | cons c cs => exact List.dropWhile_cons_of_neg (by simp [h c rfl])

/-- Only the middle of a text is what trimming leaves. -/
theorem Trims.trim_eq {text middle : String} (h : Trims text middle) : trim text = middle := by
  obtain ⟨before, after, rfl, hbefore, hafter, hhead, hlast⟩ := h
  have hback : ((middle.toList ++ after.toList).dropWhile isBlank).reverse.dropWhile isBlank =
      middle.toList.reverse := by
    cases hcs : middle.toList with
    | nil =>
      have hall : (after.toList ++ []).dropWhile isBlank = [] :=
        List.dropWhile_append_of_pos hafter
      rw [List.append_nil] at hall
      rw [List.nil_append, hall]
      rfl
    | cons c cs =>
      have hafter' : ∀ c ∈ after.toList.reverse, isBlank c := fun c hc =>
        hafter c (List.mem_reverse.1 hc)
      rw [hcs] at hhead hlast
      rw [List.cons_append, List.dropWhile_cons_of_neg (by simp [hhead c rfl]),
        ← List.cons_append, List.reverse_append, List.dropWhile_append_of_pos hafter',
        dropWhile_isBlank_of_head (by rwa [List.head?_reverse])]
  rw [trim, String.toList_append, String.toList_append, List.append_assoc,
    List.dropWhile_append_of_pos hbefore, hback, List.reverse_reverse, String.ofList_toList]

end Text

/-! ## Start keys -/

/-- A text that shows a byte string stays when the blank characters around it are taken away. -/
theorem Hex.trims_of_toUpper {text before after : String} {k : Bytes}
    (h : text.toUpper = encode k) (hbefore : ∀ c ∈ before.toList, Text.isBlank c)
    (hafter : ∀ c ∈ after.toList, Text.isBlank c) :
    Text.Trims (before ++ text ++ after) text := by
  have hdigits : ∀ c ∈ digits, Text.isBlank c = false := by
    have hall : digits.all (fun c => !Text.isBlank c) = true := by decide +kernel
    simpa using List.all_eq_true.1 hall
  have htext : ∀ c ∈ text.toList, Text.isBlank c = false := fun c hc =>
    hdigits c (mem_digits_of_toUpper h c hc)
  exact ⟨before, after, rfl, hbefore, hafter, fun c hc => htext c (List.mem_of_mem_head? hc),
    fun c hc => htext c (List.mem_of_getLast? hc)⟩

/-- A start key is read from a text if what is left without blank characters shows it. -/
theorem PassOptions.ofHexKey_eq_ok {text : String} {options : PassOptions} :
    ofHexKey text = .ok options ↔
      ∃ k, (Text.trim text).toUpper = Hex.encode k ∧ options = { start := some k } := by
  simp only [← Hex.decode_eq_ok]
  rw [ofHexKey]
  cases Hex.decode (Text.trim text) <;> simp [eq_comm]

theorem PassOptions.exists_ofHexKey_eq_ok {text : String} :
    (∃ options, ofHexKey text = .ok options) ↔
      (Text.utf8 (Text.trim text)).length % 2 = 0 ∧
        ∀ b ∈ Text.utf8 (Text.trim text), Hex.IsDigit b := by
  simp only [ofHexKey_eq_ok, ← Hex.exists_decode_eq_ok, Hex.decode_eq_ok]
  constructor
  · rintro ⟨_, k, hk, -⟩
    exact ⟨k, hk⟩
  · rintro ⟨k, hk⟩
    exact ⟨_, k, hk, rfl⟩

/-- A start key that is not read is a fault in a hexadecimal text. -/
theorem PassOptions.exists_ofHexKey_eq_error {text : String} :
    (∃ e fault, ofHexKey text = .error e ∧ e.cause = .hex fault) ↔
      ¬ ∃ options, ofHexKey text = .ok options := by
  rw [ofHexKey]
  cases Hex.decode (Text.trim text) with
  | ok k => simp
  | error fault =>
    refine iff_of_true ⟨_, fault, rfl, rfl⟩ ?_
    rintro ⟨_, ⟨⟩⟩

/-! ## Failures and their entries -/

namespace Pass

variable {α : Type}

/-- Whether a failure was met at one of the entries of a walk. -/
def MetAt (read : Entry → Except LedgerError α) (walk : Walk) (f : DecodeFailure) : Prop :=
  ∃ e, .ok e ∈ walk ∧ e.key = f.key ∧ read e = .error f.error ∧ f.error.isSkippable

/-- A call of `nextShared` keeps to the walk that is left, and a failure that it gives was met
there. -/
theorem nextShared_keeps (p : Pass α) (budget : Budget) :
    (p.nextShared budget).2.1.rest <:+ p.rest ∧ (p.nextShared budget).2.1.read = p.read ∧
      ∀ f, (p.nextShared budget).1 = some (.failure f) → MetAt p.read p.rest f := by
  rw [nextShared]
  rcases p.draw_cases budget.isLeft with ⟨q, hdraw, -, hrest, hread⟩ |
    ⟨e, q, hrest, hread, ⟨r, hdraw, -⟩ | ⟨error, hdraw, herror, hskip⟩⟩
  · rw [hdraw, ← hrest]
    refine ⟨List.suffix_refl _, hread, ?_⟩
    rintro _ ⟨⟩
  · have hsuffix : q.rest <:+ p.rest := hrest ▸ List.suffix_cons _ _
    rw [hdraw]
    cases budget.claim? <;> refine ⟨hsuffix, hread, ?_⟩ <;> rintro _ ⟨⟩
  · rw [hdraw]
    refine ⟨hrest ▸ List.suffix_cons _ _, hread, ?_⟩
    rintro _ ⟨⟩
    exact ⟨e, hrest ▸ .head _, rfl, herror, hskip⟩

/-- The items that calls of `nextShared` give, each of which finds a budget of its own. -/
def answers : List Budget → Pass α → List (Option (Item α))
  | [], _ => []
  | budget :: budgets, p =>
    (p.nextShared budget).1 :: answers budgets (p.nextShared budget).2.1

/-- A pass that has its records to itself finds no limit in any call. -/
theorem run_eq_answers (n : Nat) (p : Pass α) :
    (p.run n).1 = p.answers (List.replicate n none) := by
  induction n generalizing p with
  | zero => rfl
  | succ n ih => rw [run_succ, next_eq, List.replicate_succ, answers, ih]

/-- Whatever other passes leave of the budget, a failure was met at an entry of the walk. -/
theorem metAt_of_mem_answers {budgets : List Budget} {p : Pass α} {f : DecodeFailure}
    (h : some (.failure f) ∈ p.answers budgets) : MetAt p.read p.rest f := by
  induction budgets generalizing p with
  | nil => cases h
  | cons budget budgets ih =>
    obtain ⟨hsuffix, hread, hmet⟩ := p.nextShared_keeps budget
    rcases List.mem_cons.1 h with hfirst | hlater
    · exact hmet f hfirst.symm
    · obtain ⟨e, he, hkey, herror, hskip⟩ := ih hlater
      exact ⟨e, hsuffix.subset he, hkey, hread ▸ herror, hskip⟩

end Pass

/-! ## Walks that begin at their key -/

/-- Whether a walk that starts at the key of an entry gives that entry first. -/
def Store.Seeks (s : Store) : Prop :=
  ∀ t start walk e, s.walk t start = .ok walk → .ok e ∈ walk →
    ∃ rest, s.walk t (some e.key) = .ok (.ok e :: rest)

/-- The entries from the key of an entry on begin with this entry. -/
theorem KeyMap.exists_startingAt_key {m : KeyMap} {e : Entry} (he : e ∈ m.entries) :
    ∃ rest, m.startingAt (some e.key) = e :: rest := by
  have hsorted := m.sorted
  obtain ⟨xs, ys, h⟩ := List.append_of_mem he
  rw [h] at hsorted
  have hbelow := (List.pairwise_append.1 hsorted).2.2
  have hlow : xs.filter (fun x => AtOrAfter (some e.key) x.key) = [] := by
    refine List.filter_eq_nil_iff.2 fun x hx => ?_
    simpa using hbelow x hx e (.head _)
  rw [startingAt_eq, h, List.filter_append, hlow, List.filter_cons_of_pos (by simp)]
  exact ⟨_, rfl⟩

/-- A walk through a table in memory gives entries of the table. -/
theorem Tables.exists_mem_entries {ts : Tables} {t : Table} {start : Option Bytes} {walk : Walk}
    {e : Entry} (hwalk : ts.store.walk t start = .ok walk) (he : .ok e ∈ walk) :
    ∃ m, ts.table? t = some m ∧ e ∈ m.entries := by
  cases hm : ts.table? t with
  | none =>
    rw [walk_store_of_none hm] at hwalk
    cases hwalk
  | some m =>
    rw [walk_store hm] at hwalk
    cases hwalk
    obtain ⟨e', he', ⟨⟩⟩ := List.mem_map.1 he
    rw [KeyMap.startingAt_eq] at he'
    exact ⟨m, rfl, (List.mem_filter.1 he').1⟩

/-- Tables in memory seek their keys. -/
theorem Tables.seeks_store (ts : Tables) : ts.store.Seeks := by
  intro t start walk e hwalk he
  obtain ⟨m, hm, hmem⟩ := exists_mem_entries hwalk he
  obtain ⟨rest, hrest⟩ := KeyMap.exists_startingAt_key hmem
  exact ⟨rest.map .ok, by rw [walk_store hm, hrest, List.map_cons]⟩

/-- A ledger without an entry under the empty key seeks its keys. -/
theorem Ledger.seeks_snapshot {l : Ledger} (h : ∀ t, l.tables.find? t [] = none) :
    l.snapshot.Seeks := by
  intro t start walk e hwalk he
  have hwalk' : l.tables.store.walk t start = .ok walk := by
    simp only [snapshot] at hwalk
    split at hwalk
    · cases hwalk
      cases he with
      | tail _ he => cases he
    · exact hwalk
  obtain ⟨m, hm, hmem⟩ := Tables.exists_mem_entries hwalk' he
  have hkey : e.key ≠ [] := by
    intro hnil
    have hfind := (Tables.mem_entries hm e).1 hmem
    rw [hnil, h t] at hfind
    cases hfind
  rw [l.serves_snapshot.walk_eq t _ fun heq => hkey (Option.some.inj heq)]
  exact l.tables.seeks_store t start walk e hwalk' he

/-- Lookups that fail do not change the walks. -/
theorem Store.Seeks.failingAt {s : Store} (h : s.Seeks) (fails : Table → Bytes → Bool)
    (e : LedgerError) : (s.failingAt fails e).Seeks := h

/-- Walks that break off seek the keys that they reach. -/
theorem Store.Seeks.breakingAfter {s : Store} (h : s.Seeks) (count : Nat) (err : LedgerError) :
    (s.breakingAfter count err).Seeks := by
  intro t start walk e hwalk he
  simp only [Store.breakingAfter] at hwalk ⊢
  cases hw : s.walk t start with
  | error _ =>
    rw [hw] at hwalk
    cases hwalk
  | ok w =>
    rw [hw] at hwalk
    cases hwalk
    have hmem : .ok e ∈ w.take count := by
      rcases List.mem_append.1 he with he | he
      · exact he
      · cases he with
        | tail _ he => cases he
    obtain ⟨rest, hrest⟩ := h t start w e hw (List.mem_of_mem_take hmem)
    obtain ⟨n, rfl⟩ : ∃ n, count = n + 1 := by
      cases count with
      | zero => cases hmem
      | succ n => exact ⟨n, rfl⟩
    exact ⟨rest.take n ++ [.error err], by rw [hrest]; rfl⟩

namespace Pass

variable {kind : RecordKind} {s : Store}

/-- A pass that begins goes along a walk of the store. -/
theorem exists_walk_of_inRange {start bound : Option Bytes} {limit : Option Nat} {strict : Bool}
    {p : Pass kind.Record} (h : inRange kind s start bound limit strict = .ok p) :
    ∃ walk, s.walk kind.table start = .ok walk ∧ p = along kind s walk bound limit := by
  cases hwalk : s.walk kind.table start with
  | error e =>
    rw [inRange, hwalk] at h
    cases h
  | ok walk =>
    refine ⟨walk, rfl, ?_⟩
    simp only [inRange, hwalk, bind, Except.bind] at h
    split at h
    · cases h
    · cases h
      rfl

/-- A pass that starts at the key of a failure gives the failure first. -/
theorem start_at_failure (hseeks : s.Seeks) {start : Option Bytes} {walk : Walk}
    {f : DecodeFailure} (hwalk : s.walk kind.table start = .ok walk)
    (hmet : MetAt (kind.read s) walk f) :
    ∃ q, Pass.start kind s { start := some f.key } = .ok q ∧ q.next.1 = some (.failure f) := by
  obtain ⟨e, he, hkey, herror, hskip⟩ := hmet
  obtain ⟨rest, hrest⟩ := hseeks _ _ _ _ hwalk he
  rw [hkey] at hrest
  refine ⟨along kind s (.ok e :: rest) none none, start_eq_along hrest (.inr nofun), ?_⟩
  have hdraw : (along kind s (.ok e :: rest) none none).draw true =
      .skipped ⟨e.key, f.error⟩ (along kind s rest none none).skip := by
    simp [draw, along, reaches, herror, hskip, skip, Counts.add_def]
  rw [next, hdraw, hkey]

end Pass

/-! ## The keys that failures print -/

theorem Hex.colon_not_mem_encode (k : Bytes) : ':' ∉ (encode k).toList := by
  intro hmem
  obtain ⟨n, hn⟩ := mem_digits_iff.1 (mem_digits_of_toUpper (toUpper_encode k) _ hmem)
  have hne : ∀ n : Fin 16, ':'.toUpper ≠ digit n := by decide
  exact hne n hn

/-- What a failure prints in front of its first colon is read as its key. -/
theorem DecodeFailure.exists_printed (f : DecodeFailure) :
    ∃ printed shown, f.text = printed ++ ": " ++ shown ∧ ':' ∉ printed.toList ∧
      printed.toUpper = printed ∧ PassOptions.ofHexKey printed = .ok { start := some f.key } := by
  refine ⟨Hex.encode f.key, f.error.text, rfl, Hex.colon_not_mem_encode _, Hex.toUpper_encode _,
    PassOptions.ofHexKey_eq_ok.2 ⟨f.key, ?_, rfl⟩⟩
  have htrims : Text.Trims ("" ++ Hex.encode f.key ++ "") (Hex.encode f.key) :=
    Hex.trims_of_toUpper (Hex.toUpper_encode f.key) nofun nofun
  rw [String.empty_append, String.append_empty] at htrims
  rw [htrims.trim_eq, Hex.toUpper_encode]

/-- Hexadecimal texts, read and printed. Whatever the case of its digits, a text is read as the
start key that it shows, blank characters around it being ignored, and a text is refused as a fault
in a hexadecimal text exactly if what is left of it has an odd number of bytes or one that is no
digit. What a failure of a pass prints in front of its first colon is a start key from which a pass
gives this failure first. An identifier is read from its own text and from the texts of as many
digits as it has, and is shown as the upper-case form of the text from which it was read. -/
theorem hex_texts_exact :
    (∀ (k : Bytes) (before digits after : String), digits.toUpper = Hex.encode k →
      (∀ c ∈ before.toList, Text.isBlank c) → (∀ c ∈ after.toList, Text.isBlank c) →
      PassOptions.ofHexKey (before ++ digits ++ after) = .ok { start := some k, limit := none }) ∧
    (∀ text, Text.Trims text (Text.trim text) ∧ ∀ middle, Text.Trims text middle →
      ((∃ e fault, PassOptions.ofHexKey text = .error e ∧ e.cause = .hex fault) ↔
        (Text.utf8 middle).length % 2 = 1 ∨ ∃ b ∈ Text.utf8 middle, ¬ Hex.IsDigit b) ∧
      ((∃ options, PassOptions.ofHexKey text = .ok options) ↔
        (Text.utf8 middle).length % 2 = 0 ∧ ∀ b ∈ Text.utf8 middle, Hex.IsDigit b)) ∧
    (∀ (kind : RecordKind) (s : Store), s.Seeks →
      ∀ start bound limit strict p, Pass.inRange kind s start bound limit strict = .ok p →
      ∀ budgets f, some (.failure f) ∈ p.answers budgets →
      ∃ printed shown options q, f.text = printed ++ ": " ++ shown ∧ ':' ∉ printed.toList ∧
        printed.toUpper = printed ∧ PassOptions.ofHexKey printed = .ok options ∧
        Pass.start kind s options = .ok q ∧ q.next.1 = some (.failure f)) ∧
    ((∀ ts : Tables, ts.store.Seeks) ∧
      (∀ l : Ledger, (∀ t, l.tables.find? t [] = none) → l.snapshot.Seeks) ∧
      ∀ s : Store, s.Seeks → ∀ e, (∀ fails, (s.failingAt fails e).Seeks) ∧
        ∀ count, (s.breakingAfter count e).Seeks) ∧
    ∀ role : Role,
      (∀ x : Identifier role, Identifier.ofText role x.text = .ok x) ∧
      (∀ text, (∃ x, Identifier.ofText role text = .ok x) ↔
        text.length = 2 * role.size ∧ ∀ c ∈ text.toList, c ∈ Hex.digits) ∧
      ∀ text x, Identifier.ofText role text = .ok x → x.text = text.toUpper := by
  refine ⟨?_, ?_, ?_, ?_, ?_⟩
  · intro k before digits after hdigits hbefore hafter
    have htrims := Hex.trims_of_toUpper hdigits hbefore hafter
    exact PassOptions.ofHexKey_eq_ok.2 ⟨k, by rw [htrims.trim_eq, hdigits], rfl⟩
  · refine fun text => ⟨Text.trims_trim text, fun middle htrims => ?_⟩
    have haccepted := @PassOptions.exists_ofHexKey_eq_ok text
    rw [htrims.trim_eq] at haccepted
    refine ⟨?_, haccepted⟩
    rw [PassOptions.exists_ofHexKey_eq_error, haccepted, Classical.not_and_iff_not_or_not,
      Nat.mod_two_not_eq_zero]
    simp only [Classical.not_forall, exists_prop]
  · intro kind s hseeks start bound limit strict p hp budgets f hf
    obtain ⟨walk, hwalk, rfl⟩ := Pass.exists_walk_of_inRange hp
    have hmet := Pass.metAt_of_mem_answers hf
    obtain ⟨q, hq, hnext⟩ := Pass.start_at_failure hseeks hwalk hmet
    obtain ⟨printed, shown, htext, hcolon, hupper, hread⟩ := f.exists_printed
    exact ⟨printed, shown, _, q, htext, hcolon, hupper, hread, hq, hnext⟩
  · exact ⟨Tables.seeks_store, fun l => Ledger.seeks_snapshot, fun s hs e =>
      ⟨fun fails => hs.failingAt fails e, fun count => hs.breakingAfter count e⟩⟩
  · intro role
    refine ⟨fun x => ?_, fun text => ?_, fun text x h => ?_⟩
    · exact Identifier.ofText_eq_ok.2 (Hex.toUpper_encode _)
    · simp only [Identifier.ofText_eq_ok]
      rw [← Hex.exists_octets_iff]
      exact ⟨fun ⟨x, hx⟩ => ⟨x.octets, hx⟩, fun ⟨o, ho⟩ => ⟨⟨o⟩, ho⟩⟩
    · exact (Identifier.ofText_eq_ok.1 h).symm

/-- A key between blank characters, a text with a wrong digit, a pass that starts again at the
weight that is cut short, and a link in lower case. -/
theorem hex_texts_exact_twoWeights :
    PassOptions.ofHexKey (" " ++ "0aFf" ++ "\u3000") = .ok { start := some [10, 255] } ∧
      (∃ e fault, PassOptions.ofHexKey " 0x" = .error e ∧ e.cause = .hex fault) ∧
      (∃ p f, Pass.start .onlineWeight Ledger.twoWeights.snapshot {} = .ok p ∧
        some (.failure f) ∈ (p.run 2).1 ∧
        ∃ printed shown options q, f.text = printed ++ ": " ++ shown ∧ ':' ∉ printed.toList ∧
          printed.toUpper = printed ∧ PassOptions.ofHexKey printed = .ok options ∧
          Pass.start .onlineWeight Ledger.twoWeights.snapshot options = .ok q ∧
          q.next.1 = some (.failure f)) ∧
      ∃ x, Identifier.ofText .link (.ofList (List.replicate 64 'a')) = .ok x ∧
        x.text = String.toUpper (.ofList (List.replicate 64 'a')) := by
  obtain ⟨hspelled, htrimmed, hrestart, ⟨-, hledger, -⟩, hidentifier⟩ := hex_texts_exact
  have hblank : ∀ c ∈ " ".toList, Text.isBlank c := List.forall_mem_singleton.2 rfl
  have hblank' : ∀ c ∈ "\u3000".toList, Text.isBlank c := List.forall_mem_singleton.2 rfl
  have hupper : "0aFf".toUpper = Hex.encode [10, 255] := by decide +kernel
  have htrims : Text.Trims " 0x" "0x" :=
    ⟨" ", "", rfl, hblank, nofun, by rintro _ ⟨⟩; rfl, by rintro _ ⟨⟩; rfl⟩
  have hwrong : ¬ Hex.IsDigit (120 : UInt8) := by
    rw [Hex.IsDigit]
    decide +kernel
  have hx : (120 : UInt8) ∈ Text.utf8 "0x" := by decide +kernel
  have hempty : ∀ t, Ledger.twoWeights.tables.find? t [] = none := by
    intro t
    cases t <;> rfl
  let f : DecodeFailure := ⟨[200], .truncated⟩
  obtain ⟨p, hp⟩ : ∃ p, Pass.start .onlineWeight Ledger.twoWeights.snapshot {} = .ok p := ⟨_, rfl⟩
  have hf : some (.failure f) ∈ (p.run 2).1 := by
    cases hp
    exact .tail _ (.head _)
  obtain ⟨-, haccepted, hshown⟩ := hidentifier .link
  have hlength : (String.ofList (List.replicate 64 'a')).length = 64 := by
    rw [String.length_ofList, List.length_replicate]
  have hdigits : ∀ c ∈ (String.ofList (List.replicate 64 'a')).toList, c ∈ Hex.digits := by
    intro c hc
    rw [String.toList_ofList] at hc
    rw [List.eq_of_mem_replicate hc]
    decide +kernel
  obtain ⟨x, hlink⟩ := (haccepted _).2 ⟨hlength, hdigits⟩
  exact ⟨hspelled [10, 255] " " "0aFf" "\u3000" hupper hblank hblank',
    ((htrimmed _).2 _ htrims).1.2 (.inr ⟨120, hx, hwrong⟩),
    ⟨p, f, hp, hf, hrestart _ _ (hledger _ hempty) none none none true p hp _ f
      (p.run_eq_answers 2 ▸ hf)⟩,
    x, hlink, hshown _ x hlink⟩

end NanoLedger
