import NanoLedger.Export
import NanoLedger.Proofs.Outlook

/-!
# Draining a pass into a sink

An export hands a sink the records of the items that its pass has in prospect, in their order, and
nothing else. What this leaves in the sink depends on the sink: `Sink.Writes` relates the states
before and after a list of records was written without a fault, and `Sink.Receives` adds that the
sink was then finished once. If the sink receives the records of the prospect, the report of the
export is known in full (`Pass.exportTo_eq`).

Two sinks receive any records (`Sink.Holds`): the one that collects them and the one that writes
lines of JSON to a text. The relations are those of any sink, also of one that need not come back; a
step that comes back is a `pure` one of the sink's monad.
-/

namespace NanoLedger

variable {σ α : Type}

/-! ## What a sink receives -/

namespace SinkM

variable {m : Type → Type} [Monad m]

/-- Writing records one after another leads from one state of the sink to another, and no write
fails. -/
def Writes (sink : SinkM m σ α) : List α → σ → σ → Prop
  | [], s, t => t = s
  | r :: rs, s, t => ∃ mid, sink.write r s = pure (mid, .ok ()) ∧ Writes sink rs mid t

/-- Writing records one after another and then finishing the sink, once, leads from one state of
the sink to another, and nothing fails. -/
def Receives (sink : SinkM m σ α) (rs : List α) (s t : σ) : Prop :=
  ∃ mid, sink.Writes rs s mid ∧ sink.finish mid = pure (t, .ok ())

/-- Writing records leads to one state only. -/
theorem Writes.unique {sink : Sink σ α} {rs : List α} {s t t' : σ} (h : sink.Writes rs s t)
    (h' : sink.Writes rs s t') : t = t' := by
  induction rs generalizing s with
  | nil => exact h.trans h'.symm
  | cons r rs ih =>
    obtain ⟨mid, hwrite, h⟩ := h
    obtain ⟨mid', hwrite', h'⟩ := h'
    cases hwrite.symm.trans hwrite'
    exact ih h h'

theorem Receives.unique {sink : Sink σ α} {rs : List α} {s t t' : σ}
    (h : sink.Receives rs s t) (h' : sink.Receives rs s t') : t = t' := by
  obtain ⟨mid, hw, hf⟩ := h
  obtain ⟨mid', hw', hf'⟩ := h'
  cases hw.unique hw'
  cases hf.symm.trans hf'
  rfl

end SinkM

namespace Sink

/-- A sink that receives any records, and the state in which it holds them. -/
def Holds (sink : Sink σ α) (state : List α → σ) : Prop :=
  ∀ rs, sink.Receives rs (state []) (state rs)

/-- The collecting sink appends the records to those that it has. -/
theorem writes_collect (rs : List α) (s : Array α) :
    (collect α).Writes rs s (s ++ rs.toArray) := by
  induction rs generalizing s with
  | nil => simp [SinkM.Writes]
  | cons r rs ih =>
    have heq : s.push r ++ rs.toArray = s ++ (r :: rs).toArray := by simp
    exact ⟨s.push r, rfl, heq ▸ ih (s.push r)⟩

theorem holds_collect : (collect α).Holds List.toArray := by
  intro rs
  have hwrites := writes_collect rs #[]
  rw [Array.empty_append] at hwrites
  exact ⟨_, hwrites, rfl⟩

end Sink

namespace JsonLines

/-- The lines of records. -/
def text (json : α → Json) (rs : List α) : String :=
  String.join (rs.map fun r => (json r).render ++ "\n")

/-- The state of a writer of lines that has written records and nothing else. -/
def holding (json : α → Json) (rs : List α) : JsonLines :=
  { writer := { text := text json rs }, written := rs.length }

/-- The state of a writer of lines that had written a text of lines before the records. -/
def after (json : α → Json) (before : String) (written : Nat) (rs : List α) : JsonLines :=
  { writer := { text := before ++ text json rs }, written := written + rs.length }

theorem after_nil (json : α → Json) (before : String) (written : Nat) :
    after json before written [] = { writer := { text := before }, written } := by
  simp [after, text]

theorem after_empty (json : α → Json) : after json "" 0 = holding json := by
  funext rs
  simp [after, holding]

theorem text_cons (json : α → Json) (r : α) (rs : List α) :
    text json (r :: rs) = (json r).render ++ "\n" ++ text json rs := by
  simp [text]

theorem text_append (json : α → Json) (rs rs' : List α) :
    text json (rs ++ rs') = text json rs ++ text json rs' := by
  simp [text]

/-- The lines of several lists, one list after another, are those of all their records. -/
theorem join_text (json : α → Json) (xss : List (List α)) :
    String.join (xss.map (text json)) = text json xss.flatten := by
  induction xss with
  | nil => rfl
  | cons xs xss ih => simp [text_append, ih]

end JsonLines

namespace Sink

/-- A writer that takes everything takes the lines of the records. -/
theorem writes_jsonLines (json : α → Json) (rs : List α) (before : String) (written : Nat) :
    (jsonLines json).Writes rs { writer := { text := before }, written }
      { writer := { text := before ++ JsonLines.text json rs }, written := written + rs.length } := by
  induction rs generalizing before written with
  | nil => simp [SinkM.Writes, JsonLines.text]
  | cons r rs ih =>
    refine ⟨_, rfl, ?_⟩
    have := ih (before ++ (json r).render ++ "\n") (written + 1)
    rw [List.length_cons, ← Nat.add_assoc, Nat.add_right_comm]
    simpa [JsonLines.text, String.append_assoc] using this

theorem holds_jsonLines_after (json : α → Json) (before : String) (written : Nat) :
    (jsonLines json).Holds (.after json before written) := by
  intro rs
  rw [JsonLines.after_nil]
  exact ⟨_, writes_jsonLines json rs before written, rfl⟩

theorem holds_jsonLines (json : α → Json) : (jsonLines json).Holds (.holding json) := by
  rw [← JsonLines.after_empty]
  exact holds_jsonLines_after json "" 0

end Sink

/-! ## What an export leaves behind -/

namespace Pass

/-- The prospect of a pass has at most one item for each entry of its walk. -/
theorem length_prospect_le (p : Pass α) (b : Budget) :
    (p.prospect b).items.length ≤ p.rest.length := by
  rw [prospect, Outlook.items_cut, Outlook.items_cut]
  exact Nat.le_trans ((Item.within_isPrefix _ _).trans (Item.within_isPrefix _ _)).length_le
    (Outlook.length_items_ofWalk _ _ _)

variable {m : Type → Type} [Monad m] [LawfulMonad m] {sink : SinkM m σ α}

/-- Drained with enough calls, a pass gives the items of its prospect, and a sink that can write
their records has written them. -/
theorem drain_eq {n : Nat} {p : Pass α} {b : Budget} {s t : σ}
    (hrun : p.progress = .running) (hn : (p.prospect b).items.length < n)
    (hw : sink.Writes (Item.records (p.prospect b).items) s t) :
    ∃ q, p.drain sink n b s =
        pure ⟨q, b.after (p.prospect b).items, t, (p.prospect b).items, .ok ()⟩ ∧
      q.finish = report p.table (p.counts + Counts.ofItems (p.prospect b).items)
        (p.prospect b).failure := by
  induction n generalizing p b s with
  | zero => omega
  | succ n ih =>
    match hitems : (p.prospect b).items with
    | [] =>
      obtain ⟨q, hnext, -, -, hfinish⟩ := nextShared_nil hrun hitems
      rw [hitems] at hw
      refine ⟨q, ?_, hfinish⟩
      rw [drain, hnext, Budget.after_nil, show t = s from hw]
    | item :: items =>
      obtain ⟨hnext, hrun', htable, hcounts, hprospect⟩ := nextShared_cons hrun hitems
      rw [hitems] at hn hw
      have key : ∀ {s'}, sink.Writes (Item.records items) s' t →
          ∃ q, (p.advance.counting item).drain sink n (b.after [item]) s' =
              pure ⟨q, b.after (item :: items), t, items, .ok ()⟩ ∧
            q.finish = report p.table (p.counts + Counts.ofItems (item :: items))
              (p.prospect b).failure := by
        intro s' hw'
        have := ih hrun' (by rw [hprospect]; simpa using hn) (by rw [hprospect]; exact hw')
        rw [hprospect, ← Budget.after_append, htable, hcounts, Counts.add_assoc,
          ← Counts.ofItems_cons] at this
        exact this
      cases item with
      | record r =>
        obtain ⟨mid, hwrite, hw'⟩ := hw
        obtain ⟨q, hdrain, hfinish⟩ := key hw'
        exact ⟨q, by rw [drain, hnext]; simp only [hwrite, hdrain, pure_bind]; rfl, hfinish⟩
      | failure f =>
        obtain ⟨q, hdrain, hfinish⟩ := key hw
        exact ⟨q, by rw [drain, hnext]; simp only [hdrain, pure_bind]; rfl, hfinish⟩

/-- Behind the records in prospect, an export finishes its sink and reports the pass. -/
theorem exportInto_eq_finish {p : Pass α} {b : Budget} {s mid : σ} (hrun : p.progress = .running)
    (hw : sink.Writes (Item.records (p.prospect b).items) s mid) :
    p.exportInto sink s b = do
      match ← sink.finish mid with
      | (t, .error e) =>
        return ⟨t, (p.prospect b).items, b.after (p.prospect b).items, .error e⟩
      | (t, .ok ()) =>
        return ⟨t, (p.prospect b).items, b.after (p.prospect b).items,
          report p.table (p.counts + Counts.ofItems (p.prospect b).items)
            (p.prospect b).failure⟩ := by
  obtain ⟨q, hdrain, hfinish⟩ :=
    drain_eq hrun (Nat.lt_succ_of_le (length_prospect_le p b)) hw
  rewrite [exportInto, show p.enough = p.rest.length.succ from rfl, hdrain, pure_bind, ← hfinish]
  rfl

/-- The report of an export whose sink receives the records in prospect. -/
theorem exportInto_eq {p : Pass α} {b : Budget} {s t : σ} (hrun : p.progress = .running)
    (hs : sink.Receives (Item.records (p.prospect b).items) s t) :
    p.exportInto sink s b =
      pure ⟨t, (p.prospect b).items, b.after (p.prospect b).items,
        report p.table (p.counts + Counts.ofItems (p.prospect b).items)
          (p.prospect b).failure⟩ := by
  obtain ⟨mid, hw, hf⟩ := hs
  rw [exportInto_eq_finish hrun hw, hf, pure_bind]

theorem exportTo_eq {sink : Sink σ α} {p : Pass α} {b : Budget} {s t : σ}
    (hrun : p.progress = .running)
    (hs : sink.Receives (Item.records (p.prospect b).items) s t) :
    p.exportTo sink s b = ⟨t, (p.prospect b).items, b.after (p.prospect b).items,
      report p.table (p.counts + Counts.ofItems (p.prospect b).items) (p.prospect b).failure⟩ :=
  exportInto_eq hrun hs

end Pass

end NanoLedger
