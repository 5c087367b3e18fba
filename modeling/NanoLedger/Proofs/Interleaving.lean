import NanoLedger.Proofs.Sharding

/-!
# Shards side by side

Shards that run side by side share one budget. A shard looks whether any of it is left and draws its
next entry, and only when the record is made does it claim a unit of the budget; the other shards may
act between the two. A schedule says which shard acts when (`Shards.run`).

Whatever the schedule, each shard has given a prefix of the items of its range, and it stops only at
their end or when the budget is spent (`Shard.Inv`). Every record that was claimed has taken one unit
of the budget, so what is left and what was claimed are the limit together (`Shards.Inv.run`). From
this it follows how many records there are when all shards have stopped
(`Shards.Inv.claimed_of_stopped`).

Where no other shard comes in between, the steps of a shard are calls of `nextShared`
(`Shard.step_of_nextShared_none`, `Shard.steps_of_nextShared_some`). So shards that run one after
another share the budget in turn (`Shards.run_inTurn`).
-/

namespace NanoLedger

variable {α : Type}

/-! ## Shards and their steps -/

/-- What a shard does next: it tests the budget and draws an entry, it claims a unit of the budget
for a record that is made, or it has stopped. -/
inductive ShardPhase (α : Type) where
  | testing
  | claiming (r : α)
  | stopped

/-- A shard that runs: its pass, and the items that it has given. -/
structure Shard (α : Type) where
  pass : Pass α
  phase : ShardPhase α := .testing
  items : List (Item α) := []

/-- Shards that run side by side, and what is left of their budget. -/
structure Shards (α : Type) where
  budget : Budget
  shards : List (Shard α)

namespace Shard

/-- One atomic step of a shard, and what it leaves of the budget. -/
def step (sh : Shard α) (budget : Budget) : Shard α × Budget :=
  match sh.phase with
  | .testing =>
    match sh.pass.draw budget.isLeft with
    | .ended pass => ({ sh with pass, phase := .stopped }, budget)
    | .skipped f pass => ({ sh with pass, items := sh.items ++ [.failure f] }, budget)
    | .ready r pass => ({ sh with pass, phase := .claiming r }, budget)
  | .claiming r =>
    match budget.claim? with
    | none => ({ sh with pass := sh.pass.stop .done, phase := .stopped }, budget)
    | some budget =>
      ({ pass := sh.pass.take, phase := .testing, items := sh.items ++ [.record r] }, budget)
  | .stopped => (sh, budget)

/-- The records that a shard has given. -/
def records (sh : Shard α) : List α := Item.records sh.items

end Shard

namespace Shards

/-- Shards that have not begun to act. -/
def begin (budget : Budget) (passes : List (Pass α)) : Shards α :=
  ⟨budget, passes.map fun pass => { pass }⟩

/-- The shard with the given index takes a step, if there is one. -/
def step (st : Shards α) (i : Nat) : Shards α :=
  match st.shards[i]? with
  | none => st
  | some sh => ⟨(sh.step st.budget).2, st.shards.set i (sh.step st.budget).1⟩

/-- The shards take steps in the order of a schedule. -/
def run (st : Shards α) (schedule : List Nat) : Shards α := schedule.foldl step st

/-- The counts of all shards together. -/
def counts (st : Shards α) : Counts := Counts.total (st.shards.map (·.pass.counts))

/-- How many records were claimed by all shards together. -/
def claimed (st : Shards α) : Nat := st.counts.produced

/-- Whether all shards have stopped. -/
def AllStopped (st : Shards α) : Prop := ∀ sh ∈ st.shards, sh.phase = .stopped

end Shards

/-! ## The steps of one shard -/

namespace Shard

variable {sh : Shard α} {b : Budget}

/-- A shard whose pass goes on and has no limit of its own, and the items that it has in prospect. -/
structure Ahead (p : Pass α) (rest : List (Item α)) : Prop where
  running : p.progress = .running
  unlimited : p.remaining = none
  outlook : p.outlook = ⟨rest, none⟩

theorem Ahead.remaining_ne {p : Pass α} {rest : List (Item α)} (h : Ahead p rest) :
    p.remaining ≠ some 0 := by
  rw [h.unlimited]
  nofun

theorem Ahead.prospect {p : Pass α} {rest : List (Item α)} (h : Ahead p rest) (b : Budget) :
    p.prospect b = ⟨Item.within b rest, none⟩ := by
  rw [Pass.prospect, h.unlimited, Outlook.cut_none, h.outlook, Outlook.cut_of_no_failure]

theorem Ahead.skip {p : Pass α} {rest : List (Item α)} (h : Ahead p rest) : Ahead p.skip rest :=
  ⟨h.running, h.unlimited, h.outlook⟩

theorem Ahead.take {p : Pass α} {rest : List (Item α)} (h : Ahead p rest) : Ahead p.take rest :=
  ⟨h.running, by rw [Pass.take, h.unlimited]; rfl, h.outlook⟩

/-- A shard that tests the budget stops at the end of its items, or if nothing of the budget is
left. -/
theorem step_end {rest : List (Item α)} (hphase : sh.phase = .testing) (h : Ahead sh.pass rest)
    (hend : rest = [] ∨ b = some 0) :
    sh.step b = ({ sh with pass := sh.pass.stop .done, phase := .stopped }, b) := by
  have hdraw : sh.pass.draw b.isLeft = .ended (sh.pass.stop .done) := by
    by_cases hb : b = some 0
    · rw [Budget.isLeft, decide_eq_false (by simp [hb]), Pass.draw_false h.running h.remaining_ne]
    · have hnil : rest = [] := hend.resolve_right hb
      have hitems : sh.pass.outlook.items = [] := by rw [h.outlook, hnil]
      rw [Budget.isLeft, decide_eq_true hb, Pass.draw_nil h.running h.remaining_ne hitems, h.outlook]
      rfl
  simp only [step, hphase, hdraw]

/-- An item in prospect is drawn, if any budget is left. -/
theorem draw_item {item : Item α} {rest : List (Item α)} (h : Ahead sh.pass (item :: rest))
    (hb : b ≠ some 0) :
    sh.pass.draw b.isLeft = sh.pass.advance.giving item ∧ Ahead sh.pass.advance rest := by
  obtain ⟨hdraw, hrest⟩ :=
    Pass.draw_cons h.running h.remaining_ne (congrArg Outlook.items h.outlook)
  rw [h.outlook] at hrest
  rw [Budget.isLeft, decide_eq_true hb]
  exact ⟨hdraw, h.running, h.unlimited, hrest⟩

/-- An entry that is passed over is given at once. -/
theorem step_failure {f : DecodeFailure} {rest : List (Item α)} (hphase : sh.phase = .testing)
    (h : Ahead sh.pass (.failure f :: rest)) (hb : b ≠ some 0) :
    sh.step b =
      ({ sh with pass := sh.pass.advance.skip, items := sh.items ++ [.failure f] }, b) := by
  simp only [step, hphase, (draw_item h hb).1, Pass.giving]

/-- A record is yet to be claimed. -/
theorem step_record {r : α} {rest : List (Item α)} (hphase : sh.phase = .testing)
    (h : Ahead sh.pass (.record r :: rest)) (hb : b ≠ some 0) :
    sh.step b = ({ sh with pass := sh.pass.advance, phase := .claiming r }, b) := by
  simp only [step, hphase, (draw_item h hb).1, Pass.giving]

/-- A record is given against a unit of the budget. -/
theorem step_claim {r : α} (hphase : sh.phase = .claiming r) (hb : b ≠ some 0) :
    sh.step b = ({ pass := sh.pass.take, phase := .testing, items := sh.items ++ [.record r] },
      b.map (· - 1)) := by
  simp only [step, hphase, Budget.claim?_of_ne hb]

/-- A record for which nothing of the budget is left is dropped. -/
theorem step_lost {r : α} (hphase : sh.phase = .claiming r) :
    sh.step (some 0) = ({ sh with pass := sh.pass.stop .done, phase := .stopped }, some 0) := by
  simp only [step, hphase, Budget.claim?]

theorem step_stopped (hphase : sh.phase = .stopped) : sh.step b = (sh, b) := by
  simp only [step, hphase]

/-- A budget that is spent stays so. -/
theorem step_zero (sh : Shard α) : (sh.step (some 0)).2 = some 0 := by
  unfold step
  split
  · split <;> rfl
  · rfl
  · rfl

end Shard

/-! ## What one shard preserves -/

namespace Shard

/-- How a shard stands whose range has the given items: in front of a rest of them, behind a record
that it has yet to claim, or stopped at their end or with nothing left of the budget. -/
def Stands (full : List (Item α)) (budget : Budget) (sh : Shard α) : Prop :=
  match sh.phase with
  | .testing => ∃ rest, Ahead sh.pass rest ∧ full = sh.items ++ rest
  | .claiming r => ∃ rest, Ahead sh.pass rest ∧ full = sh.items ++ .record r :: rest
  | .stopped => sh.pass.progress = .done ∧ sh.items <+: full ∧ (sh.items = full ∨ budget = some 0)

/-- The invariant of a shard whose range has the given items. -/
structure Inv (full : List (Item α)) (budget : Budget) (sh : Shard α) : Prop where
  counts : sh.pass.counts = Counts.ofItems sh.items
  stands : sh.Stands full budget

/-- A shard that has not begun to act stands in front of all its items. -/
theorem inv_begin {p : Pass α} {full : List (Item α)} (hp : Ahead p full) (hcounts : p.counts = {})
    (b : Budget) : Inv full b { pass := p } :=
  ⟨hcounts, full, hp, rfl⟩

variable {full : List (Item α)} {b : Budget} {n : Nat} {sh : Shard α}

/-- The budget of a shard may shrink at any time. -/
theorem Inv.of_budget (h : sh.Inv full b) {b' : Budget} (hb : b = some 0 → b' = some 0) :
    sh.Inv full b' := by
  refine ⟨h.counts, ?_⟩
  have hs := h.stands
  unfold Stands at hs ⊢
  split
  · next hphase => simpa only [hphase] using hs
  · next hphase => simpa only [hphase] using hs
  · next hphase =>
    simp only [hphase] at hs
    exact ⟨hs.1, hs.2.1, hs.2.2.imp_right hb⟩

/-- What a shard has given are the first items of its range. -/
theorem Inv.isPrefix (h : sh.Inv full b) : sh.items <+: full := by
  have hs := h.stands
  unfold Stands at hs
  split at hs
  · obtain ⟨rest, -, rfl⟩ := hs
    exact List.prefix_append _ _
  · obtain ⟨rest, -, rfl⟩ := hs
    exact List.prefix_append _ _
  · exact hs.2.1

/-- A shard claims at most as many records as its range has. -/
theorem Inv.produced_le (h : sh.Inv full b) :
    sh.pass.counts.produced ≤ (Counts.ofItems full).produced := by
  rw [h.counts, Counts.produced_ofItems, Counts.produced_ofItems]
  exact (h.isPrefix.filterMap _).length_le

/-- A shard that stops while any budget is left has given all items of its range. -/
theorem Inv.counts_eq (h : sh.Inv full b) (hstopped : sh.phase = .stopped) (hb : b ≠ some 0) :
    sh.pass.counts = Counts.ofItems full := by
  have hs := h.stands
  simp only [Stands, hstopped] at hs
  rw [h.counts, hs.2.2.resolve_right hb]

/-- A shard never fails. -/
theorem Inv.finish (h : sh.Inv full b) : sh.pass.finish = .ok sh.pass.counts := by
  have hs := h.stands
  unfold Stands at hs
  split at hs
  · obtain ⟨rest, hahead, -⟩ := hs
    rw [Pass.finish, hahead.running]
  · obtain ⟨rest, hahead, -⟩ := hs
    rw [Pass.finish, hahead.running]
  · rw [Pass.finish, hs.1]

/-- A step of a shard preserves its invariant, and what it takes off the budget is what it adds to
the records that were claimed. -/
theorem Inv.step (h : sh.Inv full (some n)) :
    ∃ left, (sh.step (some n)).2 = some left ∧ (sh.step (some n)).1.Inv full (some left) ∧
      left + (sh.step (some n)).1.pass.counts.produced = n + sh.pass.counts.produced := by
  have hcounts := h.counts
  have hs := h.stands
  have hprefix := h.isPrefix
  unfold Stands at hs
  split at hs
  · next hphase =>
    obtain ⟨rest, hahead, hfull⟩ := hs
    by_cases hend : rest = [] ∨ some n = some 0
    · rw [step_end hphase hahead hend]
      refine ⟨n, rfl, ⟨hcounts, rfl, hprefix, hend.imp_left fun hnil => ?_⟩, rfl⟩
      rw [hfull, hnil, List.append_nil]
    · obtain ⟨hne, hb⟩ := not_or.1 hend
      obtain ⟨item, rest, rfl⟩ := List.exists_cons_of_ne_nil hne
      have hadvance := (draw_item hahead hb).2
      cases item with
      | record r =>
        rw [step_record hphase hahead hb]
        exact ⟨n, rfl, ⟨hcounts, rest, hadvance, hfull⟩, rfl⟩
      | failure f =>
        rw [step_failure hphase hahead hb]
        refine ⟨n, rfl, ⟨?_, ?_⟩, rfl⟩
        · simp only [Counts.ofItems_append, ← hcounts]
          rfl
        · simp only [Stands, hphase]
          exact ⟨rest, hadvance.skip, by simpa using hfull⟩
  · next r hphase =>
    obtain ⟨rest, hahead, hfull⟩ := hs
    match n with
    | 0 =>
      rw [step_lost hphase]
      exact ⟨0, rfl, ⟨hcounts, rfl, hprefix, .inr rfl⟩, rfl⟩
    | n + 1 =>
      rw [step_claim hphase (by simp)]
      refine ⟨n, rfl, ⟨?_, rest, hahead.take, by simpa using hfull⟩, ?_⟩
      · simp only [Counts.ofItems_append, ← hcounts]
        rfl
      · simp only [Pass.take]
        omega
  · next hphase =>
    rw [step_stopped hphase]
    exact ⟨n, rfl, h, rfl⟩

end Shard

/-! ## What all shards preserve -/

namespace Shards

/-- The invariant of shards whose ranges have the given items: each one, paired with the items of its
range, keeps its own invariant, and what is left of the budget and what was claimed are the limit
together. -/
structure Inv (limit : Nat) (fulls : List (List (Item α))) (st : Shards α) : Prop where
  paired : ∃ pairs : List (Shard α × List (Item α)), st.shards = pairs.map Prod.fst ∧
    fulls = pairs.map Prod.snd ∧ ∀ x ∈ pairs, x.1.Inv x.2 st.budget
  conserved : ∃ left, st.budget = some left ∧ left + st.claimed = limit

variable {limit : Nat} {fulls : List (List (Item α))} {st : Shards α}

/-- A step of any shard preserves the invariant. The other shards see the budget shrink at most. -/
theorem Inv.step (h : st.Inv limit fulls) (i : Nat) : (st.step i).Inv limit fulls := by
  obtain ⟨pairs, hshards, rfl, hinv⟩ := h.paired
  obtain ⟨left, hleft, hlimit⟩ := h.conserved
  cases hi : pairs[i]? with
  | none =>
    have hstep : st.step i = st := by rw [Shards.step, hshards, List.getElem?_map, hi]; rfl
    rw [hstep]
    exact h
  | some x =>
    obtain ⟨sh, full⟩ := x
    have hsh : st.shards[i]? = some sh := by rw [hshards, List.getElem?_map, hi]; rfl
    have hstep : st.step i =
        ⟨(sh.step (some left)).2, st.shards.set i (sh.step (some left)).1⟩ := by
      rw [Shards.step, hsh, hleft]
    rw [hleft] at hinv
    have hshard : sh.Inv full (some left) := hinv (sh, full) (List.mem_of_getElem? hi)
    obtain ⟨left', hleft', hinv', htaken⟩ := hshard.step
    rw [hstep]
    refine ⟨⟨pairs.set i ((sh.step (some left)).1, full), ?_, ?_, fun x hx => ?_⟩, left', hleft', ?_⟩
    · rw [hshards, List.map_set]
    · have hfull : (pairs.map Prod.snd)[i]? = some full := by rw [List.getElem?_map, hi]; rfl
      obtain ⟨hlt, hget⟩ := List.getElem?_eq_some_iff.1 hfull
      rw [List.map_set, ← hget, List.set_getElem_self]
    · rw [hleft']
      rcases List.mem_or_eq_of_mem_set hx with hx | rfl
      · refine (hinv x hx).of_budget fun hzero => ?_
        rw [Option.some_inj] at hzero
        rw [← hleft', hzero]
        exact sh.step_zero
      · exact hinv'
    · have hcounts : (st.shards.map (·.pass.counts))[i]? = some sh.pass.counts := by
        rw [List.getElem?_map, hsh]
        rfl
      have htotal := Counts.produced_total_set hcounts (sh.step (some left)).1.pass.counts
      rw [← List.map_set] at htotal
      simp only [claimed, counts] at hlimit ⊢
      omega

/-- Whatever the schedule, the shards keep their invariant. -/
theorem Inv.run (h : st.Inv limit fulls) (schedule : List Nat) :
    (st.run schedule).Inv limit fulls := by
  induction schedule generalizing st with
  | nil => exact h
  | cons i schedule ih => exact ih (h.step i)

/-- The counts of all shards together are those of the items that they have given. -/
theorem counts_eq (h : ∀ sh ∈ st.shards, sh.pass.counts = Counts.ofItems sh.items) :
    st.counts = Counts.ofItems (st.shards.flatMap (·.items)) := by
  have hcounts : st.shards.map (·.pass.counts) = (st.shards.map (·.items)).map Counts.ofItems := by
    rw [List.map_map]
    exact List.map_congr_left h
  rw [counts, hcounts, Counts.total_ofItems, List.flatMap_def]

/-- Shards begin in their invariant. -/
theorem inv_begin (limit : Nat) {pairs : List (Pass α × List (Item α))}
    (h : ∀ x ∈ pairs, Shard.Ahead x.1 x.2 ∧ x.1.counts = {}) :
    (begin (some limit) (pairs.map Prod.fst)).Inv limit (pairs.map Prod.snd) := by
  refine ⟨⟨pairs.map fun x => ({ pass := x.1 }, x.2), by simp [begin], by simp, ?_⟩, limit, rfl, ?_⟩
  · intro x hx
    obtain ⟨y, hy, rfl⟩ := List.mem_map.1 hx
    exact Shard.inv_begin (h y hy).1 (h y hy).2 _
  · have hcounts : (begin (some limit) (pairs.map Prod.fst)).counts = {} := by
      rw [counts_eq, begin, List.flatMap_map, List.flatMap_eq_nil_iff.2 fun _ _ => rfl]
      · rfl
      · intro sh hsh
        simp only [begin, List.map_map, List.mem_map] at hsh
        obtain ⟨x, hx, rfl⟩ := hsh
        exact (h x hx).2
    rw [claimed, hcounts, Nat.add_zero]

/-- Each shard keeps its own invariant, for the items of its range. -/
theorem Inv.shard (h : st.Inv limit fulls) {i : Nat} {sh : Shard α}
    (hsh : st.shards[i]? = some sh) : ∃ full, fulls[i]? = some full ∧ sh.Inv full st.budget := by
  obtain ⟨pairs, hshards, rfl, hinv⟩ := h.paired
  rw [hshards, List.getElem?_map, Option.map_eq_some_iff] at hsh
  obtain ⟨x, hx, rfl⟩ := hsh
  exact ⟨x.2, by rw [List.getElem?_map, hx]; rfl, hinv x (List.mem_of_getElem? hx)⟩

/-- The shards count together what they have given. -/
theorem Inv.counts_eq (h : st.Inv limit fulls) :
    st.counts = Counts.ofItems (st.shards.flatMap (·.items)) := by
  refine Shards.counts_eq fun sh hsh => ?_
  obtain ⟨i, hi⟩ := List.getElem?_of_mem hsh
  obtain ⟨_, -, hinv⟩ := h.shard hi
  exact hinv.counts

/-- When all shards have stopped, they have claimed as many records as there are in their ranges, or
as the limit admits. -/
theorem Inv.claimed_of_stopped (h : st.Inv limit fulls) (hstopped : st.AllStopped) :
    st.claimed = min limit (Item.records fulls.flatten).length := by
  obtain ⟨pairs, hshards, rfl, hinv⟩ := h.paired
  obtain ⟨left, hleft, hlimit⟩ := h.conserved
  have hcounts : st.counts = Counts.total (pairs.map fun x => x.1.pass.counts) := by
    rw [counts, hshards, List.map_map]
    rfl
  have hitems : Counts.ofItems (pairs.map Prod.snd).flatten =
      Counts.total (pairs.map fun x => Counts.ofItems x.2) := by
    rw [← Counts.total_ofItems, List.map_map]
    rfl
  rw [claimed, hcounts] at hlimit ⊢
  rw [← Counts.produced_ofItems, hitems]
  by_cases hzero : left = 0
  · have hle := Counts.produced_total_le fun x hx => (hinv x hx).produced_le
    omega
  · have heq : ∀ x ∈ pairs, x.1.pass.counts = Counts.ofItems x.2 := by
      intro x hx
      refine (hinv x hx).counts_eq (hstopped x.1 ?_) ?_
      · rw [hshards]
        exact List.mem_map_of_mem hx
      · rw [hleft]
        simpa using hzero
    rw [List.map_congr_left heq] at hlimit ⊢
    omega

end Shards

/-! ## Shards one after another -/

namespace Shard

/-- The steps of a shard with none of another one in between. -/
def steps : Nat → Shard α → Budget → Shard α × Budget
  | 0, sh, b => (sh, b)
  | n + 1, sh, b => steps n (sh.step b).1 (sh.step b).2

theorem steps_stopped {sh : Shard α} (h : sh.phase = .stopped) (n : Nat) (b : Budget) :
    sh.steps n b = (sh, b) := by
  induction n with
  | zero => rfl
  | succ n ih => rw [steps, step_stopped h, ih]

theorem steps_add (m n : Nat) (sh : Shard α) (b : Budget) :
    sh.steps (m + n) b = steps n (sh.steps m b).1 (sh.steps m b).2 := by
  induction m generalizing sh b with
  | zero => rw [Nat.zero_add, steps]
  | succ m ih => rw [Nat.succ_add, steps, steps, ih]

/-- A call of `nextShared` that gives nothing is a single step. The claim cannot fail where nothing
came between the test and the claim. -/
theorem step_of_nextShared_none {sh : Shard α} {b b' : Budget} {p : Pass α}
    (hphase : sh.phase = .testing) (h : sh.pass.nextShared b = (none, p, b')) :
    sh.step b = ({ sh with pass := p, phase := .stopped }, b') := by
  rw [Pass.nextShared] at h
  split at h
  · next hdraw =>
    cases h
    simp only [step, hphase, hdraw]
  · cases h
  · next hdraw =>
    have hb : b ≠ some 0 := by
      rintro rfl
      obtain ⟨q, hended⟩ := sh.pass.exists_draw_false
      cases hended.symm.trans hdraw
    rw [Budget.claim?_of_ne hb] at h
    cases h

/-- A call of `nextShared` that gives an item is one step of a shard, or two for a record. -/
theorem steps_of_nextShared_some {sh : Shard α} {b b' : Budget} {p : Pass α} {item : Item α}
    (hphase : sh.phase = .testing) (h : sh.pass.nextShared b = (some item, p, b')) :
    ∃ n ≤ 2, sh.steps n b = ({ pass := p, items := sh.items ++ [item] }, b') := by
  rw [Pass.nextShared] at h
  split at h
  · cases h
  · next hdraw =>
    cases h
    refine ⟨1, by decide, ?_⟩
    simp only [steps, step, hphase, hdraw]
  · next hdraw =>
    split at h
    · cases h
    · next hclaim =>
      cases h
      refine ⟨2, by decide, ?_⟩
      simp only [steps, step, hphase, hdraw, hclaim]

/-- Left to itself for long enough, a shard gives the items that its pass has in prospect, and
stops. -/
theorem steps_eq {items : List (Item α)} (sh : Shard α) {b : Budget} {n : Nat}
    (hphase : sh.phase = .testing) (hrun : sh.pass.progress = .running)
    (hitems : (sh.pass.prospect b).items = items) (hn : 2 * items.length + 1 ≤ n) :
    ∃ sh', sh.steps n b = (sh', b.after items) ∧ sh'.phase = .stopped ∧
      sh'.items = sh.items ++ items := by
  induction items generalizing sh b n with
  | nil =>
    obtain ⟨p, hnext, -⟩ := Pass.nextShared_nil hrun hitems
    obtain ⟨n, rfl⟩ : ∃ m, n = m + 1 := ⟨n - 1, by omega⟩
    rw [steps, step_of_nextShared_none hphase hnext, steps_stopped rfl, Budget.after_nil]
    exact ⟨_, rfl, rfl, (List.append_nil _).symm⟩
  | cons item items ih =>
    obtain ⟨hnext, hrun', -, -, hprospect⟩ := Pass.nextShared_cons hrun hitems
    obtain ⟨k, hk, hsteps⟩ := steps_of_nextShared_some hphase hnext
    obtain ⟨n, rfl⟩ : ∃ m, n = k + m := ⟨n - k, by rw [List.length_cons] at hn; omega⟩
    have hlong : 2 * items.length + 1 ≤ n := by rw [List.length_cons] at hn; omega
    let sh' : Shard α := { pass := sh.pass.advance.counting item, items := sh.items ++ [item] }
    have hitems' : (sh'.pass.prospect (b.after [item])).items = items := by rw [hprospect]
    obtain ⟨sh'', hsteps', hstopped, hgiven⟩ := ih sh' rfl hrun' hitems' hlong
    rw [steps_add, hsteps, hsteps', ← Budget.after_append]
    exact ⟨sh'', rfl, hstopped, by rw [hgiven, List.append_assoc]; rfl⟩

end Shard

namespace Shards

theorem run_append (st : Shards α) (xs ys : List Nat) :
    st.run (xs ++ ys) = (st.run xs).run ys := List.foldl_append

/-- A shard that takes its steps with none of another one in between. -/
theorem run_replicate {st : Shards α} {i : Nat} {sh : Shard α} (hsh : st.shards[i]? = some sh)
    (n : Nat) : st.run (List.replicate n i) =
      ⟨(sh.steps n st.budget).2, st.shards.set i (sh.steps n st.budget).1⟩ := by
  induction n generalizing st sh with
  | zero =>
    have hset : st.shards.set i sh = st.shards := by
      obtain ⟨hi, rfl⟩ := List.getElem?_eq_some_iff.1 hsh
      exact List.set_getElem_self hi
    rw [Shard.steps, hset]
    rfl
  | succ n ih =>
    have hi : i < st.shards.length := (List.getElem?_eq_some_iff.1 hsh).1
    have hstep : st.step i = ⟨(sh.step st.budget).2, st.shards.set i (sh.step st.budget).1⟩ := by
      rw [step, hsh]
    have hnext : (st.step i).shards[i]? = some (sh.step st.budget).1 := by
      rw [hstep]
      exact List.getElem?_set_self hi
    rw [List.replicate_succ]
    refine (ih hnext).trans ?_
    rw [hstep, List.set_set]
    rfl

/-- The schedule in which the shards from a given one on act one after another, each one for a given
number of steps. -/
def inTurn (turns first count : Nat) : List Nat :=
  (List.range' first count).flatMap (List.replicate turns)

/-- Shards that act one after another, each one for long enough, share the budget in turn. -/
theorem run_inTurn {pairs : List (Pass α × List (Item α))}
    (h : ∀ x ∈ pairs, Shard.Ahead x.1 x.2) {turns : Nat}
    (hturns : ∀ x ∈ pairs, 2 * x.2.length + 1 ≤ turns) (ended : List (Shard α)) (b : Budget) :
    ∃ b' shards, run ⟨b, ended ++ (begin b (pairs.map Prod.fst)).shards⟩
        (inTurn turns ended.length pairs.length) = ⟨b', ended ++ shards⟩ ∧
      (∀ sh ∈ shards, sh.phase = .stopped) ∧
      shards.map (·.items) = b.share (pairs.map Prod.snd) := by
  induction pairs generalizing ended b with
  | nil => exact ⟨b, [], by simp [inTurn, run, begin], by simp, rfl⟩
  | cons x pairs ih =>
    obtain ⟨p, full⟩ := x
    have hahead : Shard.Ahead p full := h _ (.head _)
    have hprospect : (p.prospect b).items = Item.within b full := by rw [hahead.prospect]
    have hlong : 2 * (Item.within b full).length + 1 ≤ turns := by
      have hle := (Item.within_isPrefix b full).length_le
      have hturn : 2 * full.length + 1 ≤ turns := hturns _ (.head _)
      omega
    obtain ⟨sh, hsteps, hphase, hgiven⟩ :=
      Shard.steps_eq { pass := p } rfl hahead.running hprospect hlong
    obtain ⟨b', shards, hrun, hstopped, hitems⟩ :=
      ih (fun x hx => h x (.tail _ hx)) (fun x hx => hturns x (.tail _ hx)) (ended ++ [sh])
        (b.after (Item.within b full))
    rw [List.map_cons]
    have hfirst : (ended ++ (begin b (p :: pairs.map Prod.fst)).shards)[ended.length]? =
        some { pass := p } := by simp [begin]
    have hreplicate : run ⟨b, ended ++ (begin b (p :: pairs.map Prod.fst)).shards⟩
        (List.replicate turns ended.length) = ⟨b.after (Item.within b full),
          ended ++ [sh] ++
            (begin (b.after (Item.within b full)) (pairs.map Prod.fst)).shards⟩ := by
      rw [run_replicate hfirst, hsteps]
      simp [begin]
    refine ⟨b', sh :: shards, ?_, ?_, ?_⟩
    · rw [inTurn, List.length_cons, List.range'_succ, List.flatMap_cons, run_append, hreplicate]
      rw [List.length_append, List.length_singleton] at hrun
      simpa [inTurn] using hrun
    · simpa [hphase] using hstopped
    · rw [List.map_cons, hgiven, hitems]
      rfl

end Shards

/-! ## The shards of a ledger under a limit -/

section
variable {s : Store} {ts : Tables} (kind : RecordKind) (m : KeyMap) (ranges : List KeyRange)

/-- The passes over ranges of keys begin in front of the items of their ranges. -/
theorem ahead_ofRange (h : s.Serves ts) :
    ∀ x ∈ ranges.map (fun r => (Pass.ofRange kind s m r, Pass.itemsIn kind s m r)),
      Shard.Ahead x.1 x.2 ∧ x.1.counts = {} := by
  intro x hx
  obtain ⟨r, -, rfl⟩ := List.mem_map.1 hx
  exact ⟨⟨rfl, rfl, Pass.outlook_ofRange h r⟩, rfl⟩

/-- Whatever the schedule, the shards of ranges of keys keep their invariant. -/
theorem inv_run_ofRange (h : s.Serves ts) (limit : Nat) (schedule : List Nat) :
    ((Shards.begin (some limit) (ranges.map (Pass.ofRange kind s m))).run schedule).Inv limit
      (ranges.map (Pass.itemsIn kind s m)) := by
  have hbegin := Shards.inv_begin limit (ahead_ofRange kind m ranges h)
  rw [List.map_map, List.map_map] at hbegin
  exact hbegin.run schedule

variable {kind m ranges}

/-- The items of a tiling are those from its start on. -/
theorem flatten_itemsIn {start : Option Bytes} (htiling : KeyRange.Tiling start ranges) :
    (ranges.map (Pass.itemsIn kind s m)).flatten =
      (m.startingAt start).map (Item.ofEntry (kind.read s)) := by
  rw [← List.flatMap_def, Pass.flatMap_itemsIn htiling]

/-- Each shard has given the first records of its range. -/
theorem records_isPrefix (h : s.Serves ts) {limit i : Nat} {schedule : List Nat}
    {sh : Shard kind.Record}
    (hsh : ((Shards.begin (some limit) (ranges.map (Pass.ofRange kind s m))).run
      schedule).shards[i]? = some sh) :
    ∃ p, (ranges.map (Pass.ofRange kind s m))[i]? = some p ∧
      sh.records <+: (p.exportTo (.collect kind.Record) #[] none).sink.toList := by
  obtain ⟨full, hfull, hinv⟩ := (inv_run_ofRange kind m ranges h limit schedule).shard hsh
  rw [List.getElem?_map, Option.map_eq_some_iff] at hfull
  obtain ⟨r, hr, rfl⟩ := hfull
  refine ⟨Pass.ofRange kind s m r, by simp [hr], ?_⟩
  have hexport : (Pass.ofRange kind s m r).exportTo (.collect kind.Record) #[] none = _ :=
    Pass.exportTo_eq rfl (Sink.holds_collect _)
  rw [hexport, Pass.prospect_ofRange h]
  exact hinv.isPrefix.filterMap _

/-- The shards of a tiling that act one after another, each one for long enough, give the items of a
single pass. -/
theorem run_inTurn_ofRange (h : s.Serves ts) (options : PassOptions)
    (htiling : KeyRange.Tiling options.start ranges) {turns : Nat} (hturns : 2 * m.size + 1 ≤ turns) :
    let st := (Shards.begin options.limit (ranges.map (Pass.ofRange kind s m))).run
      (Shards.inTurn turns 0 ranges.length)
    st.AllStopped ∧ st.shards.flatMap (·.items) = Pass.itemsFrom kind s m options := by
  intro st
  have hlong : ∀ x ∈ ranges.map (fun r => (Pass.ofRange kind s m r, Pass.itemsIn kind s m r)),
      2 * x.2.length + 1 ≤ turns := by
    intro x hx
    obtain ⟨r, -, rfl⟩ := List.mem_map.1 hx
    have hle := Pass.length_itemsIn_le kind s m r
    show 2 * (Pass.itemsIn kind s m r).length + 1 ≤ turns
    omega
  obtain ⟨b, ended, hrun, hstopped, hitems⟩ := Shards.run_inTurn
    (fun x hx => (ahead_ofRange kind m ranges h x hx).1) hlong [] options.limit
  rw [List.map_map, List.length_map] at hrun
  rw [List.map_map] at hitems
  have hst : st = ⟨b, ended⟩ := hrun
  rw [hst]
  refine ⟨hstopped, ?_⟩
  rw [List.flatMap_def, hitems, Budget.flatten_share]
  exact congrArg (Item.within options.limit) (flatten_itemsIn htiling)

end

/-- Whatever the schedule of the shards of a ledger under a limit, what is left of the limit and the
records that were claimed are the limit together, and each shard has the first records of its range.
When all shards have stopped, they have claimed as many records as a single pass: all those that can
be made from the start key on, or as many as the limit admits. Shards that act one after another give
the records and the counts of the single pass.

That the single pass begins says that the table exists and that the start key, if there is one, is
found. An empty start key is left out, since a ledger refuses it, and the system is to build the pool
of threads for the shards. -/
theorem shards_share_limit (l : Ledger) (kind : RecordKind) (start : Option Bytes)
    (hstart : start ≠ some []) (limit shards : Nat) {poolFault? : Nat → Option String}
    (hpool : poolFault? (max shards 1) = none)
    {single : ExportReport (Array kind.Record) kind.Record}
    (hsingle : exportTable kind l.snapshot ⟨start, some limit⟩ (.collect kind.Record) #[] =
      .ok single) :
    ∃ (m : KeyMap) (ranges : List KeyRange) (passes : List (Pass kind.Record)),
      l.tables.table? kind.table = some m ∧
      shardRanges l.snapshot kind.table start shards = .ok ranges ∧
      ranges.map (fun r => Pass.inRange kind l.snapshot r.start r.stop none false) =
        passes.map .ok ∧
      (∀ schedule,
        let st := (Shards.begin (some limit) passes).run schedule
        (∃ left, st.budget = some left ∧ left + st.claimed = limit) ∧
        (∀ (i : Nat) (sh : Shard kind.Record), st.shards[i]? = some sh →
          sh.pass.finish = .ok (Counts.ofItems sh.items) ∧
          ∃ p, passes[i]? = some p ∧
            sh.records <+: (p.exportTo (.collect kind.Record) #[] none).sink.toList) ∧
        (st.AllStopped → single.result.map (·.produced) = .ok st.claimed ∧
          st.claimed = min limit
            ((m.startingAt start).countP fun e => (kind.read l.snapshot e).isOk))) ∧
      (∀ turns, 2 * m.size + 1 ≤ turns →
        let st := (Shards.begin (some limit) passes).run (Shards.inTurn turns 0 ranges.length)
        st.AllStopped ∧ st.shards.flatMap Shard.records = single.sink.toList ∧
          single.result = .ok st.counts) ∧
      let sharded := exportSharded kind l.snapshot ⟨start, some limit⟩ shards poolFault?
        (.fresh (.collect kind.Record) #[])
      sharded.result = single.result ∧ sharded.sinks.flatMap Array.toList = single.sink.toList := by
  have h := l.serves_snapshot
  obtain ⟨counts, hresult, hresult', hsinks⟩ := exportSharded_collect h hstart hsingle hpool
  obtain ⟨m, hm, hne, rfl⟩ := exportTable_eq_ok h Sink.holds_collect hstart hsingle
  have hwalk := h.walk_eq kind.table start hstart
  rw [Tables.walk_store hm] at hwalk
  obtain ⟨ranges, hranges, htiling⟩ := shardRanges_eq hwalk hne shards
  refine ⟨m, ranges, ranges.map (Pass.ofRange kind l.snapshot m), hm, hranges, ?_, ?_, ?_,
    hresult'.trans hresult.symm, hsinks⟩
  · rw [List.map_map]
    exact List.map_congr_left fun r hr =>
      Pass.inRange_eq_ofRange h hm (htiling.start_ne_nil hstart r hr)
  · intro schedule
    have hinv := inv_run_ofRange kind m ranges h limit schedule
    refine ⟨hinv.conserved, ?_, ?_⟩
    · intro i sh hsh
      obtain ⟨full, -, hshard⟩ := hinv.shard hsh
      exact ⟨by rw [hshard.finish, hshard.counts], records_isPrefix h hsh⟩
    · intro hstopped
      have hclaimed := hinv.claimed_of_stopped hstopped
      rw [flatten_itemsIn htiling] at hclaimed
      refine ⟨congrArg Except.ok ?_, by rw [hclaimed, Item.length_records_ofEntry]⟩
      rw [hclaimed]
      exact (Counts.produced_ofItems _).trans (Item.length_records_upTo _ _)
  · intro turns hturns
    obtain ⟨hstopped, hitems⟩ := run_inTurn_ofRange h ⟨start, some limit⟩ htiling hturns
    have hcounts :=
      (inv_run_ofRange kind m ranges h limit (Shards.inTurn turns 0 ranges.length)).counts_eq
    refine ⟨hstopped, ?_, by rw [hcounts, hitems]⟩
    rw [← hitems]
    exact List.filterMap_flatMap.symm

/-- Two shards share a limit of one record, and stop. -/
theorem shards_share_limit_twoWeights :
    let poolFault? (threads : Nat) := if 100 < threads then some "no threads" else none
    (none : Option Bytes) ≠ some [] ∧ poolFault? (max 2 1) = none ∧
      ∃ (passes : List (Pass OnlineWeight)) (schedule : List Nat) (left : Nat),
        let st := (Shards.begin (some 1) passes).run schedule
        st.AllStopped ∧ st.budget = some left ∧ left + st.claimed = 1 := by
  intro poolFault?
  have hpool : poolFault? (max 2 1) = none := rfl
  obtain ⟨m, ranges, passes, -, -, -, hschedule, hinTurn, -⟩ :=
    shards_share_limit .twoWeights .onlineWeight none nofun 1 2 hpool rfl
  obtain ⟨hstopped, -⟩ := hinTurn _ (Nat.le_refl _)
  obtain ⟨⟨left, hleft, hlimit⟩, -⟩ :=
    hschedule (Shards.inTurn (2 * m.size + 1) 0 ranges.length)
  exact ⟨nofun, hpool, passes, _, left, hstopped, hleft, hlimit⟩

end NanoLedger
