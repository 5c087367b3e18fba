import NanoLedger.Pass

/-!
# The outlook of a pass

What a pass will still give is settled by the walk that it has left: the items of the entries up to
the end of the walk, the bound of the pass or the first error that is not passed over, and that
error. This is the outlook of the pass (`Pass.outlook`). A limit cuts an outlook behind the record
that reaches it, and what would have failed later is then never met (`Outlook.cut`).

Two lemmas say how a call of `next` uses up the outlook (`Pass.nextShared_nil` and
`Pass.nextShared_cons`). By induction the calls of a whole run give the items of the outlook in
order and then nothing, with the counts of what was given so far and the failure at the end
(`Pass.run_spec`). A pass with no failure in its outlook never fails (`Pass.run_of_prospect`).
-/

namespace NanoLedger

variable {α : Type}

/-! ## Items and their counts -/

namespace Item

/-- The item of an entry: its record, or why there is none. -/
def ofEntry (read : Entry → Except LedgerError α) (e : Entry) : Item α :=
  match read e with
  | .ok r => .record r
  | .error error => .failure ⟨e.key, error⟩

/-- Whether an item is a record. -/
def isRecord : Item α → Bool
  | record _ => true
  | failure _ => false

/-- The record that an item is. -/
def record? : Item α → Option α
  | record r => some r
  | failure _ => none

/-- The records among items. -/
def records (items : List (Item α)) : List α := items.filterMap record?

/-- The items up to the `n`-th record, which is the last one; all of them if there are fewer. -/
def upTo : Nat → List (Item α) → List (Item α)
  | 0, _ => []
  | _ + 1, [] => []
  | n + 1, record r :: items => record r :: upTo n items
  | n + 1, failure f :: items => failure f :: upTo (n + 1) items

/-- The items that a limit on the records admits. -/
def within : Option Nat → List (Item α) → List (Item α)
  | none, items => items
  | some n, items => upTo n items

@[simp] theorem records_nil : records ([] : List (Item α)) = [] := rfl

@[simp] theorem records_record (r : α) (items : List (Item α)) :
    records (record r :: items) = r :: records items := rfl

@[simp] theorem records_failure (f : DecodeFailure) (items : List (Item α)) :
    records (failure f :: items) = records items := rfl

@[simp] theorem records_append (xs ys : List (Item α)) :
    records (xs ++ ys) = records xs ++ records ys := List.filterMap_append

theorem records_flatten (xss : List (List (Item α))) :
    records xss.flatten = (xss.map records).flatten := List.filterMap_flatten

/-- There are as many records as items that are records. -/
theorem length_records (items : List (Item α)) :
    (records items).length = items.countP isRecord := by
  induction items with
  | nil => rfl
  | cons item items ih => cases item <;> simp [ih, isRecord, List.countP_cons]

/-- There are as many records as entries that can be read. -/
theorem length_records_ofEntry (read : Entry → Except LedgerError α) (es : List Entry) :
    (records (es.map (ofEntry read))).length = es.countP fun e => (read e).isOk := by
  rw [length_records, List.countP_map]
  refine List.countP_congr fun e _ => ?_
  simp only [Function.comp_apply, ofEntry]
  cases read e <;> simp [isRecord, Except.isOk, Except.toBool]

@[simp] theorem upTo_zero (items : List (Item α)) : upTo 0 items = [] := by
  cases items <;> rfl

/-- Up to a number of records that is not reached, nothing is cut off. -/
theorem upTo_of_lt {n : Nat} {items : List (Item α)} (h : (records items).length < n) :
    upTo n items = items := by
  induction items generalizing n with
  | nil => cases n <;> rfl
  | cons item items ih =>
    obtain ⟨n, rfl⟩ : ∃ m, n = m + 1 := ⟨n - 1, by omega⟩
    cases item with
    | record r => rw [upTo, ih (by simpa using h)]
    | failure f => rw [upTo, ih (by simpa using h)]

/-- Cutting off what follows the `n`-th record leaves `n` records, if there are as many. -/
theorem length_records_upTo (n : Nat) (items : List (Item α)) :
    (records (upTo n items)).length = min n (records items).length := by
  induction items generalizing n with
  | nil => cases n <;> simp [upTo]
  | cons item items ih =>
    cases n with
    | zero => simp
    | succ n =>
      cases item with
      | record r => simp [upTo, ih, Nat.add_min_add_right]
      | failure f => simp [upTo, ih]

/-- A limit on the records of two lists in turn: what the first one has left of it goes to the
second one. -/
theorem upTo_append (n : Nat) (xs ys : List (Item α)) :
    upTo n (xs ++ ys) = upTo n xs ++ upTo (n - (records xs).length) ys := by
  induction xs generalizing n with
  | nil => cases n <;> simp [upTo]
  | cons x xs ih =>
    cases n with
    | zero => simp
    | succ n => cases x <;> simp [upTo, ih]

@[simp] theorem within_nil (limit : Option Nat) : within limit ([] : List (Item α)) = [] := by
  match limit with
  | none | some 0 | some (_ + 1) => rfl

/-- What is cut off is a rest. -/
theorem within_isPrefix (limit : Option Nat) (items : List (Item α)) :
    within limit items <+: items := by
  cases limit with
  | none => exact List.prefix_refl _
  | some n =>
    rw [within]
    induction items generalizing n with
    | nil => cases n <;> simp [upTo]
    | cons item items ih =>
      cases n with
      | zero => simp
      | succ n => cases item <;> simpa [upTo] using ih _

end Item

namespace Counts

/-- The counts of items. -/
def ofItems (items : List (Item α)) : Counts :=
  ⟨items.countP Item.isRecord, items.countP fun item => !item.isRecord⟩

theorem add_def (a b : Counts) : a + b = ⟨a.produced + b.produced, a.skipped + b.skipped⟩ := rfl

@[simp] theorem produced_add (a b : Counts) : (a + b).produced = a.produced + b.produced := rfl

@[simp] theorem add_zero (a : Counts) : a + {} = a := rfl

@[simp] theorem zero_add (a : Counts) : {} + a = a := by simp [add_def]

theorem add_assoc (a b c : Counts) : a + b + c = a + (b + c) := by
  simp [add_def, Nat.add_assoc]

@[simp] theorem ofItems_nil : ofItems ([] : List (Item α)) = {} := rfl

theorem ofItems_append (xs ys : List (Item α)) :
    ofItems (xs ++ ys) = ofItems xs + ofItems ys := by
  simp [ofItems, add_def]

theorem ofItems_cons (item : Item α) (items : List (Item α)) :
    ofItems (item :: items) = ofItems [item] + ofItems items :=
  ofItems_append [item] items

@[simp] theorem produced_ofItems (items : List (Item α)) :
    (ofItems items).produced = (Item.records items).length := (Item.length_records items).symm

/-- Several counts together. -/
def total (counts : List Counts) : Counts := counts.foldr (· + ·) {}

@[simp] theorem total_cons (c : Counts) (counts : List Counts) :
    total (c :: counts) = c + total counts := rfl

theorem total_ofItems (xss : List (List (Item α))) :
    total (xss.map ofItems) = ofItems xss.flatten := by
  induction xss with
  | nil => rfl
  | cons xs xss ih => rw [List.map_cons, total_cons, ih, List.flatten_cons, ofItems_append]

/-- Replacing one of several counts changes what was produced by the difference. -/
theorem produced_total_set {counts : List Counts} {i : Nat} {c : Counts}
    (hc : counts[i]? = some c) (c' : Counts) :
    (total (counts.set i c')).produced + c.produced =
      (total counts).produced + c'.produced := by
  induction counts generalizing i with
  | nil => cases hc
  | cons a counts ih =>
    cases i with
    | zero =>
      cases hc
      simp only [List.set_cons_zero, total_cons, produced_add]
      omega
    | succ i =>
      have := @ih i (by simpa using hc)
      simp only [List.set_cons_succ, total_cons, produced_add]
      omega

theorem produced_total_le {β : Type} {f g : β → Counts} {xs : List β}
    (h : ∀ x ∈ xs, (f x).produced ≤ (g x).produced) :
    (total (xs.map f)).produced ≤ (total (xs.map g)).produced := by
  induction xs with
  | nil => exact Nat.le_refl _
  | cons x xs ih =>
    have hx := h x (.head _)
    have hxs := ih fun y hy => h y (.tail _ hy)
    simp only [List.map_cons, total_cons, produced_add]
    omega

end Counts

/-! ## Budgets -/

namespace Budget

/-- What is left of a budget after items were given. -/
def after (b : Budget) (items : List (Item α)) : Budget :=
  b.map (· - (Item.records items).length)

@[simp] theorem after_nil (b : Budget) : b.after ([] : List (Item α)) = b := by
  cases b <;> rfl

theorem after_append (b : Budget) (xs ys : List (Item α)) :
    b.after (xs ++ ys) = (b.after xs).after ys := by
  cases b <;> simp [after, Nat.sub_sub]

/-- A limit on two lists in turn: what the first one has left of it goes to the second one. -/
theorem within_append (b : Budget) (xs ys : List (Item α)) :
    Item.within b (xs ++ ys) =
      Item.within b xs ++ Item.within (b.after (Item.within b xs)) ys := by
  cases b with
  | none => rfl
  | some n =>
    have hleft : n - min n (Item.records xs).length = n - (Item.records xs).length := by omega
    simp only [Item.within, after, Option.map_some, Item.upTo_append, Item.length_records_upTo,
      hleft]

/-- As long as any budget is left, a record can be claimed. -/
theorem claim?_of_ne {b : Budget} (h : b ≠ some 0) : b.claim? = some (b.map (· - 1)) := by
  match b, h with
  | none, _ => rfl
  | some (_ + 1), _ => rfl

end Budget

/-! ## Outlooks -/

/-- What a pass will still give: items, and then the end or an error. -/
structure Outlook (α : Type) where
  items : List (Item α) := []
  failure : Option LedgerError := none

namespace Outlook

/-- An outlook with one more item in front. -/
def cons (item : Item α) (o : Outlook α) : Outlook α := { o with items := item :: o.items }

/-- The outlook of a walk whose entries are read up to the first one that is out of bounds. -/
def ofWalk (past : Bytes → Bool) (read : Entry → Except LedgerError α) : Walk → Outlook α
  | [] => {}
  | .error e :: _ => { failure := some e }
  | .ok entry :: rest =>
    if past entry.key then {}
    else
      match read entry with
      | .ok r => (ofWalk past read rest).cons (.record r)
      | .error e =>
        if e.isSkippable then (ofWalk past read rest).cons (.failure ⟨entry.key, e⟩)
        else { failure := some e }

/-- The outlook under a limit on the records. If the limit is reached, no failure is. -/
def cut : Option Nat → Outlook α → Outlook α
  | none, o => o
  | some n, o =>
    if n ≤ (Item.records o.items).length then { items := Item.upTo n o.items } else o

@[simp] theorem items_cons (item : Item α) (o : Outlook α) :
    (o.cons item).items = item :: o.items := rfl

@[simp] theorem failure_cons (item : Item α) (o : Outlook α) :
    (o.cons item).failure = o.failure := rfl

@[simp] theorem cut_none (o : Outlook α) : o.cut none = o := rfl

@[simp] theorem cut_zero (o : Outlook α) : o.cut (some 0) = {} := by simp [cut]

/-- The items of an outlook under a limit are those that the limit admits. -/
theorem items_cut (limit : Option Nat) (o : Outlook α) :
    (o.cut limit).items = Item.within limit o.items := by
  cases limit with
  | none => rfl
  | some n =>
    rw [cut, Item.within]
    split
    · rfl
    · next h => exact (Item.upTo_of_lt (by omega)).symm

/-- Without a failure there is none under a limit. -/
theorem cut_of_no_failure (limit : Option Nat) (items : List (Item α)) :
    (⟨items, none⟩ : Outlook α).cut limit = ⟨Item.within limit items, none⟩ := by
  cases limit with
  | none => rfl
  | some n =>
    rw [cut, Item.within]
    split
    · rfl
    · next h => rw [Item.upTo_of_lt (by simpa using h)]

/-- An item in front is not cut off, unless the limit is zero; a record takes one off the limit. -/
theorem cut_cons (item : Item α) (o : Outlook α) {limit : Option Nat} (h : limit ≠ some 0) :
    (o.cons item).cut limit = (o.cut (Budget.after limit [item])).cons item := by
  match limit, h with
  | none, _ => rfl
  | some (n + 1), _ =>
    cases item with
    | failure f =>
      by_cases hn : n + 1 ≤ (Item.records o.items).length <;>
        simp [cut, cons, Budget.after, Item.upTo, hn]
    | record r =>
      by_cases hn : n ≤ (Item.records o.items).length <;>
        simp [cut, cons, Budget.after, Item.upTo, hn]

/-- Nothing is cut off at the end of an outlook, unless the limit is zero. -/
theorem cut_of_items_nil {o : Outlook α} (h : o.items = []) {limit : Option Nat}
    (hl : limit ≠ some 0) : o.cut limit = o := by
  match limit, hl with
  | none, _ => rfl
  | some (n + 1), _ => rw [cut, if_neg (by simp [h])]

/-- A walk has an outlook of at most one item for each of its entries. -/
theorem length_items_ofWalk (past : Bytes → Bool) (read : Entry → Except LedgerError α)
    (walk : Walk) : (ofWalk past read walk).items.length ≤ walk.length := by
  fun_induction ofWalk past read walk with
  | case1 => exact Nat.le_refl _
  | case2 => exact Nat.zero_le _
  | case3 => exact Nat.zero_le _
  | case4 _ _ _ _ _ ih => simpa using ih
  | case5 _ _ _ _ _ _ ih => simpa using ih
  | case6 => exact Nat.zero_le _

end Outlook

/-! ## One step of a pass -/

namespace Progress

/-- How a pass that has given all its items stands: it is done, or it has failed. -/
def ending : Option LedgerError → Progress
  | none => .done
  | some e => .failed e

end Progress

namespace Pass

/-- What a pass will still give if nothing limits its records. -/
def outlook (p : Pass α) : Outlook α := .ofWalk p.reaches p.read p.rest

/-- What a pass will still give, under its limit and a budget. -/
def prospect (p : Pass α) (budget : Budget) : Outlook α := (p.outlook.cut p.remaining).cut budget

/-- The report of a pass over a table: its counts, unless it failed. -/
def report (table : Table) (counts : Counts) : Option LedgerError → Except LedgerError Counts
  | none => .ok counts
  | some e => .error (e.join ("scanning `" ++ table.name ++ "`"))

/-- A pass that gives nothing any more, whatever budget is left. -/
def IsOver (p : Pass α) : Prop := ∀ budgetLeft, p.draw budgetLeft = .ended p

/-- The pass behind the next entry of its walk. -/
def advance (p : Pass α) : Pass α := { p with rest := p.rest.tail }

/-- The pass with one more entry that was passed over. -/
def skip (p : Pass α) : Pass α := { p with counts := p.counts + ⟨0, 1⟩ }

@[simp] theorem outlook_skip (p : Pass α) : p.skip.outlook = p.outlook := rfl

@[simp] theorem outlook_take (p : Pass α) : p.take.outlook = p.outlook := rfl

/-- The draw of an item by a pass that stands behind it. -/
def giving (p : Pass α) : Item α → Draw α
  | .record r => .ready r p
  | .failure f => .skipped f p.skip

theorem isOver_of_stopped {p : Pass α} (h : p.progress ≠ .running) : p.IsOver :=
  fun _ => if_pos (.inl h)

theorem isOver_of_remaining {p : Pass α} (h : p.remaining = some 0) : p.IsOver :=
  fun _ => if_pos (.inr h)

/-- Nothing is drawn where no budget is left. -/
theorem draw_false {p : Pass α} (hrun : p.progress = .running) (hrem : p.remaining ≠ some 0) :
    p.draw false = .ended (p.stop .done) := by
  simp [draw, hrun, hrem]

theorem exists_draw_false (p : Pass α) : ∃ q, p.draw false = .ended q := by
  rw [draw]
  split
  · exact ⟨_, rfl⟩
  · exact ⟨_, rfl⟩

/-- At the end of its outlook a pass stops, with the failure if there is one. -/
theorem draw_nil {p : Pass α} (hrun : p.progress = .running) (hrem : p.remaining ≠ some 0)
    (h : p.outlook.items = []) : p.draw true = .ended (p.stop (.ending p.outlook.failure)) := by
  rw [outlook] at h ⊢
  rw [draw, if_neg (by simp [hrun, hrem]), if_neg (by simp)]
  match hrest : p.rest with
  | [] => rfl
  | .error e :: rest => rfl
  | .ok entry :: rest =>
    rw [hrest] at h
    simp only [Outlook.ofWalk] at h ⊢
    by_cases hpast : p.reaches entry.key
    · simp only [hpast, if_true, Progress.ending]
    · cases hread : p.read entry with
      | ok r => simp [hpast, hread] at h
      | error e =>
        by_cases hskip : e.isSkippable
        · simp [hpast, hread, hskip] at h
        · simp [hpast, hskip, Progress.ending]

/-- The first item of its outlook is what a pass draws next; the others are its outlook then. -/
theorem draw_cons {p : Pass α} (hrun : p.progress = .running) (hrem : p.remaining ≠ some 0)
    {item : Item α} {items : List (Item α)} (h : p.outlook.items = item :: items) :
    p.draw true = p.advance.giving item ∧ p.advance.outlook = ⟨items, p.outlook.failure⟩ := by
  rw [outlook] at h
  rw [draw, if_neg (by simp [hrun, hrem]), if_neg (by simp)]
  simp only [outlook]
  match hrest : p.rest with
  | [] => rw [hrest] at h; cases h
  | .error e :: rest => rw [hrest] at h; cases h
  | .ok entry :: rest =>
    have hadvance : p.advance.rest = rest := by rw [advance, hrest]; rfl
    rw [hrest] at h
    rw [hadvance]
    simp only [Outlook.ofWalk] at h ⊢
    by_cases hpast : p.reaches entry.key
    · simp [hpast] at h
    · cases hread : p.read entry with
      | ok r =>
        simp only [hpast, hread, Bool.false_eq_true, if_false, Outlook.items_cons,
          List.cons.injEq] at h ⊢
        obtain ⟨rfl, rfl⟩ := h
        exact ⟨by rw [advance, hrest]; rfl, rfl⟩
      | error e =>
        by_cases hskip : e.isSkippable
        · simp only [hpast, hread, hskip, Bool.false_eq_true, if_false, if_true,
            Outlook.items_cons, List.cons.injEq] at h ⊢
          obtain ⟨rfl, rfl⟩ := h
          exact ⟨by rw [giving, skip, advance, hrest]; rfl, rfl⟩
        · simp [hpast, hread, hskip] at h

/-- The pass with an item counted. -/
def counting (p : Pass α) : Item α → Pass α
  | .record _ => p.take
  | .failure _ => p.skip

/-- At the end of its prospect a pass gives nothing, is over, and reports the failure if there is
one. -/
theorem nextShared_nil {p : Pass α} (hrun : p.progress = .running) {b : Budget}
    (h : (p.prospect b).items = []) :
    ∃ q, p.nextShared b = (none, q, b) ∧ q.IsOver ∧ q.counts = p.counts ∧
      q.finish = report p.table p.counts (p.prospect b).failure := by
  by_cases hrem : p.remaining = some 0
  · refine ⟨p, ?_, isOver_of_remaining hrem, rfl, ?_⟩
    · rw [nextShared, isOver_of_remaining hrem]
    · rw [finish, hrun, prospect, hrem, Outlook.cut_zero, Outlook.cut_of_no_failure]
      rfl
  by_cases hb : b = some 0
  · refine ⟨p.stop .done, ?_, isOver_of_stopped (by simp [stop]), rfl, ?_⟩
    · rw [nextShared, hb, Budget.isLeft, decide_eq_false (by simp), draw_false hrun hrem]
    · rw [prospect, hb, Outlook.cut_zero]
      rfl
  have hleft : b.isLeft = true := decide_eq_true hb
  match ho : p.outlook with
  | ⟨[], failure⟩ =>
    have hitems : p.outlook.items = [] := by rw [ho]
    refine ⟨p.stop (.ending failure), ?_, isOver_of_stopped ?_, rfl, ?_⟩
    · rw [nextShared, hleft, draw_nil hrun hrem hitems, ho]
    · cases failure <;> simp [stop, Progress.ending]
    · rw [prospect, Outlook.cut_of_items_nil hitems hrem, Outlook.cut_of_items_nil hitems hb, ho]
      cases failure <;> rfl
  | ⟨item :: items, failure⟩ =>
    have ho' : p.outlook = (⟨items, failure⟩ : Outlook α).cons item := ho
    rw [prospect, ho', Outlook.cut_cons item _ hrem, Outlook.cut_cons item _ hb] at h
    cases h

/-- The first item of its prospect is what a pass gives next; the others are its prospect then. -/
theorem nextShared_cons {p : Pass α} (hrun : p.progress = .running) {b : Budget} {item : Item α}
    {items : List (Item α)} (h : (p.prospect b).items = item :: items) :
    p.nextShared b = (some item, p.advance.counting item, b.after [item]) ∧
      (p.advance.counting item).progress = .running ∧
      (p.advance.counting item).table = p.table ∧
      (p.advance.counting item).counts = p.counts + Counts.ofItems [item] ∧
      (p.advance.counting item).prospect (b.after [item]) = ⟨items, (p.prospect b).failure⟩ := by
  by_cases hrem : p.remaining = some 0
  · rw [prospect, hrem, Outlook.cut_zero, Outlook.items_cut] at h
    cases b with
    | none => cases h
    | some n => cases n <;> cases h
  by_cases hb : b = some 0
  · rw [prospect, hb, Outlook.cut_zero] at h
    cases h
  have hleft : b.isLeft = true := decide_eq_true hb
  match ho : p.outlook with
  | ⟨[], failure⟩ =>
    have hitems : p.outlook.items = [] := by rw [ho]
    rw [prospect, Outlook.cut_of_items_nil hitems hrem, Outlook.cut_of_items_nil hitems hb, ho] at h
    cases h
  | ⟨item' :: items', failure⟩ =>
    have ho' : p.outlook = (⟨items', failure⟩ : Outlook α).cons item' := ho
    have hp : p.prospect b = (((⟨items', failure⟩ : Outlook α).cut
        (Budget.after p.remaining [item'])).cut (b.after [item'])).cons item' := by
      rw [prospect, ho', Outlook.cut_cons item' _ hrem, Outlook.cut_cons item' _ hb]
    obtain ⟨hdraw, hadvance⟩ := draw_cons hrun hrem (congrArg Outlook.items ho)
    rw [hp] at h ⊢
    simp only [Outlook.items_cons, List.cons.injEq] at h
    obtain ⟨rfl, rfl⟩ := h
    rw [ho] at hadvance
    cases item' with
    | record r =>
      refine ⟨?_, hrun, rfl, rfl, ?_⟩
      · rw [nextShared, hleft, hdraw]
        simp only [giving, Budget.claim?_of_ne hb]
        rfl
      · rw [prospect, counting, outlook_take, hadvance]
        rfl
    | failure f =>
      refine ⟨?_, hrun, rfl, rfl, ?_⟩
      · rw [nextShared, hleft, hdraw]
        simp only [giving]
        cases b <;> rfl
      · rw [prospect, counting, outlook_skip, hadvance]
        cases hr : p.remaining <;> simp [skip, advance, hr, Budget.after]

/-- A pass that has its records to itself is one whose budget nothing limits. -/
theorem next_eq (p : Pass α) : p.next = ((p.nextShared none).1, (p.nextShared none).2.1) := by
  rw [nextShared, next, show Budget.isLeft none = true from rfl]
  cases p.draw true <;> rfl

/-! ## A whole run -/

theorem run_succ (p : Pass α) (n : Nat) :
    p.run (n + 1) = (p.next.1 :: (p.next.2.run n).1, (p.next.2.run n).2) := rfl

/-- A pass that is over gives nothing however often it is asked. -/
theorem run_of_isOver {p : Pass α} (h : p.IsOver) (n : Nat) :
    p.run n = (List.replicate n none, p) := by
  have hnext : p.next = (none, p) := by rw [next, h]
  induction n with
  | zero => rfl
  | succ n ih => rw [run_succ, hnext, ih]; rfl

/-- What `n` calls of `next` give, and how the pass stands behind them. -/
theorem run_spec {p : Pass α} (hrun : p.progress = .running) (n : Nat) :
    (p.run n).1 = (List.range n).map ((p.prospect none).items[·]?) ∧
      (p.run n).2.counts = p.counts + Counts.ofItems ((p.prospect none).items.take n) ∧
      (p.run n).2.finish = report p.table (p.run n).2.counts
        (if n ≤ (p.prospect none).items.length then none else (p.prospect none).failure) := by
  induction n generalizing p with
  | zero => exact ⟨rfl, rfl, by rw [finish, run, hrun]; rfl⟩
  | succ n ih =>
    match hitems : (p.prospect none).items with
    | [] =>
      obtain ⟨q, hnext, hover, hcounts, hfinish⟩ := nextShared_nil hrun hitems
      rw [run_succ, next_eq, hnext, run_of_isOver hover]
      refine ⟨?_, ?_, ?_⟩
      · simp [← List.replicate_succ, List.map_const']
      · simp [hcounts]
      · rw [hfinish, hcounts, if_neg (by simp)]
    | item :: items =>
      obtain ⟨hnext, hrun', htable, hcounts, hprospect⟩ := nextShared_cons hrun hitems
      obtain ⟨ih1, ih2, ih3⟩ := ih hrun'
      rw [Budget.after, Option.map_none] at hprospect
      rw [hprospect] at ih1 ih2 ih3
      rw [run_succ, next_eq, hnext]
      refine ⟨?_, ?_, ?_⟩
      · rw [ih1, List.range_succ_eq_map]
        simp
      · rw [ih2, hcounts, Counts.add_assoc, ← Counts.ofItems_cons, List.take_succ_cons]
      · rw [ih3, htable]
        simp

/-- A pass that begins with items and no failure in prospect gives these items, counts those that it
gave, and never fails. -/
theorem run_of_prospect {p : Pass α} (hrun : p.progress = .running) (hcounts : p.counts = {})
    {items : List (Item α)} (h : p.prospect none = ⟨items, none⟩) (n : Nat) :
    (p.run n).1 = (List.range n).map (items[·]?) ∧
      (p.run n).2.counts = Counts.ofItems (items.take n) ∧
      (p.run n).2.finish = .ok (Counts.ofItems (items.take n)) := by
  obtain ⟨hitems, hgiven, hfinish⟩ := run_spec hrun n
  rw [h] at hitems hgiven hfinish
  rw [hcounts, Counts.zero_add] at hgiven
  refine ⟨hitems, hgiven, ?_⟩
  rw [hfinish, ite_self, hgiven]
  rfl

end Pass

end NanoLedger
