import NanoLedger.KeyRange
import NanoLedger.Store.KeyMap

/-!
# Ranges of keys

A range holds the keys from its start on and in front of its end. Cut in two at a key, it has the
entries below the key and then those from the key on (`KeyRange.filter_append_filter`).

The shards of the key space tile it: the first range is open below, each one ends where the next one
begins, and the last one is open above (`KeyRange.Tiling`, `KeyRange.tiling_shards`). Narrowing the
ranges to a start key and leaving out those that lie below it tiles the keys from the start key on
(`KeyRange.Tiling.startingAt`). So the entries of a table in the ranges, taken in the order of the
ranges, are the entries of the table, each once and in order (`KeyRange.Tiling.flatMap_filter`): one
range after another is cut off.
-/

namespace NanoLedger

/-- The keys from an optional start key on. -/
def AtOrAfter (start : Option Bytes) (key : Bytes) : Prop := ∀ s ∈ start, s ≤ key

instance (start : Option Bytes) (key : Bytes) : Decidable (AtOrAfter start key) := by
  unfold AtOrAfter; infer_instance

@[simp] theorem atOrAfter_none (key : Bytes) : AtOrAfter none key := nofun

@[simp] theorem atOrAfter_some {start key : Bytes} : AtOrAfter (some start) key ↔ start ≤ key := by
  simp [AtOrAfter]

/-- The entries of a table from a start key on. -/
theorem KeyMap.startingAt_eq (m : KeyMap) (start : Option Bytes) :
    m.startingAt start = m.entries.filter fun e => AtOrAfter start e.key := by
  cases start with
  | none => exact (List.filter_eq_self.2 fun e _ => decide_eq_true (atOrAfter_none e.key)).symm
  | some s => simp [startingAt, List.not_lt]

/-- The entries from a start key on are in ascending order. -/
theorem KeyMap.sorted_startingAt (m : KeyMap) (start : Option Bytes) :
    (m.startingAt start).Pairwise fun a b => a.key < b.key := by
  rw [startingAt_eq]
  exact m.sorted.filter _

/-- The first entry from a start key on has the least key of them. -/
theorem KeyMap.le_of_startingAt_eq_cons {m : KeyMap} {start : Option Bytes} {first e : Entry}
    {es : List Entry} (h : m.startingAt start = first :: es) (he : e ∈ m.startingAt start) :
    first.key ≤ e.key := by
  have hsorted := m.sorted_startingAt start
  rw [h] at hsorted he
  rcases List.mem_cons.1 he with rfl | hrest
  · exact List.le_refl _
  · exact List.le_of_lt ((List.pairwise_cons.1 hsorted).1 e hrest)

/-! ## Ascending lists -/

section
variable {α : Type} {p : α → Bool}

/-- In a list where everything in front of an element of a kind is of that kind, the elements of the
kind come first. -/
theorem filter_append_filter_not {xs : List α} (h : xs.Pairwise fun a b => p b → p a) :
    xs.filter p ++ xs.filter (fun a => !p a) = xs := by
  induction xs with
  | nil => rfl
  | cons x xs ih =>
    have ⟨hx, hxs⟩ := List.pairwise_cons.1 h
    by_cases hp : p x = true
    · simp [hp, ih hxs]
    · have hnone : xs.filter p = [] := List.filter_eq_nil_iff.2 fun a ha hpa => hp (hx a ha hpa)
      have hall : xs.filter (fun a => !p a) = xs := by
        simpa [hnone] using ih hxs
      simp [hp, hnone, hall]

theorem takeWhile_eq_filter {xs : List α} (h : xs.Pairwise fun a b => p b → p a) :
    xs.takeWhile p = xs.filter p := by
  induction xs with
  | nil => rfl
  | cons x xs ih =>
    have ⟨hx, hxs⟩ := List.pairwise_cons.1 h
    by_cases hp : p x = true
    · simp [hp, ih hxs]
    · have hnone : xs.filter p = [] := List.filter_eq_nil_iff.2 fun a ha hpa => hp (hx a ha hpa)
      simp [hp, hnone]

end

/-- In ascending entries, those with keys of a kind come first if it is that of all lower keys as
well. -/
theorem pairwise_downward {es : List Entry} (hes : es.Pairwise fun a b => a.key < b.key)
    {p : Bytes → Prop} [DecidablePred p] (hp : ∀ {k key}, k < key → p key → p k) :
    es.Pairwise fun a b => decide (p b.key) = true → decide (p a.key) = true := by
  refine hes.imp fun hlt hb => ?_
  rw [decide_eq_true_eq] at hb ⊢
  exact hp hlt hb

namespace KeyRange

/-! ## Cutting a range in two -/

section
variable {start stop : Option Bytes} {key k : Bytes}

/-- The keys of a range below a key that is not behind its end. -/
theorem contains_below_iff (hstop : ∀ s ∈ stop, key ≤ s) :
    (KeyRange.mk start (some key)).Contains k ↔ k < key ∧ (KeyRange.mk start stop).Contains k := by
  refine ⟨fun h => ?_, fun h => ?_⟩
  · have hlt : k < key := h.2 key rfl
    exact ⟨hlt, h.1, fun s hs => Std.lt_of_lt_of_le hlt (hstop s hs)⟩
  · refine ⟨h.2.1, ?_⟩
    rintro _ ⟨⟩
    exact h.1

/-- The keys of a range from a key on that is not in front of its start. -/
theorem contains_from_iff (hstart : AtOrAfter start key) :
    (KeyRange.mk (some key) stop).Contains k ↔ ¬ k < key ∧ (KeyRange.mk start stop).Contains k := by
  rw [List.not_lt]
  refine ⟨fun h => ?_, fun h => ?_⟩
  · have hle : key ≤ k := h.1 key rfl
    exact ⟨hle, fun s hs => List.le_trans (hstart s hs) hle, h.2⟩
  · refine ⟨?_, h.2.2⟩
    rintro _ ⟨⟩
    exact h.1

/-- Cut at a key, a range has the entries below the key and then those from the key on. -/
theorem filter_append_filter (hstart : AtOrAfter start key) (hstop : ∀ s ∈ stop, key ≤ s)
    {es : List Entry} (hes : es.Pairwise fun a b => a.key < b.key) :
    (es.filter fun e => (KeyRange.mk start (some key)).Contains e.key) ++
        (es.filter fun e => (KeyRange.mk (some key) stop).Contains e.key) =
      es.filter fun e => (KeyRange.mk start stop).Contains e.key := by
  have hrange := hes.filter fun e => (KeyRange.mk start stop).Contains e.key
  have hbelow := pairwise_downward hrange (p := (· < key)) List.lt_trans
  rw [← filter_append_filter_not hbelow, List.filter_filter, List.filter_filter]
  simp only [contains_below_iff hstop, contains_from_iff hstart, Bool.decide_and, decide_not]

/-- In ascending entries, those in front of the end of a range come first. -/
theorem pairwise_contains {es : List Entry} (hes : es.Pairwise fun a b => a.key < b.key)
    (stop : Option Bytes) :
    es.Pairwise fun a b => decide ((KeyRange.mk none stop).Contains b.key) = true →
      decide ((KeyRange.mk none stop).Contains a.key) = true :=
  pairwise_downward hes fun hlt hkey =>
    ⟨atOrAfter_none _, fun s hs => List.lt_trans hlt (hkey.2 s hs)⟩

/-- Of the entries from its start on, a range has those in front of its end. -/
theorem filter_startingAt (m : KeyMap) (r : KeyRange) :
    ((m.startingAt r.start).filter fun e => (KeyRange.mk none r.stop).Contains e.key) =
      m.entries.filter fun e => r.Contains e.key := by
  rw [KeyMap.startingAt_eq, List.filter_filter]
  refine List.filter_congr fun e _ => ?_
  simp [Contains, AtOrAfter, Bool.and_comm]

/-- The entries of a range are the first ones of those from its start on. -/
theorem filter_isPrefix (m : KeyMap) (r : KeyRange) :
    (m.entries.filter fun e => r.Contains e.key) <+: m.startingAt r.start := by
  rw [← filter_startingAt, ← takeWhile_eq_filter (pairwise_contains (m.sorted_startingAt _) _)]
  exact List.takeWhile_prefix _

end

/-! ## Tilings -/

/-- Ranges that tile the keys from a start on: each one ends behind its start, where the next one
begins, and the last one has no end. A missing start counts as the empty key, the least one. -/
inductive Tiling : Option Bytes → List KeyRange → Prop
  | last (start : Option Bytes) : Tiling start [⟨start, none⟩]
  | cons {start : Option Bytes} {stop : Bytes} {rs : List KeyRange} :
      start.getD [] < stop → Tiling (some stop) rs → Tiling start (⟨start, some stop⟩ :: rs)

theorem ne_nil_of_lt {key stop : Bytes} (h : key < stop) : stop ≠ [] := by
  rintro rfl
  exact List.not_lt_nil _ h

/-- Only the first range of a tiling can start at the empty key. -/
theorem Tiling.start_ne_nil {start : Option Bytes} {rs : List KeyRange} (h : Tiling start rs)
    (hstart : start ≠ some []) : ∀ r ∈ rs, r.start ≠ some [] := by
  induction h with
  | last => simpa using hstart
  | cons hlt _ ih =>
    have := ih (by simpa using ne_nil_of_lt hlt)
    simpa using ⟨hstart, this⟩

/-- The first range of a tiling starts where the tiling does. -/
theorem Tiling.exists_cons {start : Option Bytes} {rs : List KeyRange} (h : Tiling start rs) :
    ∃ stop rest, rs = ⟨start, stop⟩ :: rest := by
  cases h <;> exact ⟨_, _, rfl⟩

/-- The entries in the ranges of a tiling, range after range, are the entries from its start on. -/
theorem Tiling.flatMap_filter {start : Option Bytes} {rs : List KeyRange} (h : Tiling start rs)
    {es : List Entry} (hes : es.Pairwise fun a b => a.key < b.key) :
    (rs.flatMap fun r => es.filter fun e => r.Contains e.key) =
      es.filter fun e => AtOrAfter start e.key := by
  have hopen (start : Option Bytes) : (es.filter fun e => AtOrAfter start e.key) =
      es.filter fun e => (KeyRange.mk start none).Contains e.key := by
    simp [Contains, AtOrAfter]
  induction h with
  | last start =>
    rw [List.flatMap_singleton, hopen]
  | @cons start stop rs hlt _ ih =>
    -- the other ranges have the entries from the end of the first one on
    have hstart : AtOrAfter start stop := by
      rintro s ⟨⟩
      exact List.le_of_lt hlt
    rw [List.flatMap_cons, ih, hopen, hopen]
    refine filter_append_filter hstart ?_ hes
    exact nofun

/-! ## The shards of the key space -/

/-- Boundaries ascend. -/
theorem boundary_lt {count i : Nat} (hcount : count ≤ 256) (hi : i + 1 < count) :
    boundary count i < boundary count (i + 1) := by
  have hstep : i * 256 / count < (i + 1) * 256 / count := by
    have hle : i * 256 + count ≤ (i + 1) * 256 := by omega
    have := Nat.div_le_div_right (c := count) hle
    rw [Nat.add_div_right _ (by omega)] at this
    omega
  have hlast : (i + 1) * 256 / count < 256 := Nat.div_lt_of_lt_mul (by omega)
  rw [boundary, boundary, List.cons_lt_cons_iff]
  left
  rw [UInt8.lt_iff_toNat_lt, UInt8.toNat_ofNat', UInt8.toNat_ofNat',
    Nat.mod_eq_of_lt (Nat.lt_trans hstep hlast), Nat.mod_eq_of_lt hlast]
  exact hstep

/-- The shards from the `i`-th one on tile the keys from its start on. -/
theorem tiling_shard {count : Nat} (hcount : count ≤ 256) {i n : Nat} (h : i + n + 1 = count) :
    Tiling (shard count i).start ((List.range' i (n + 1)).map (shard count)) := by
  induction n generalizing i with
  | zero =>
    have hlast : shard count i = ⟨(shard count i).start, none⟩ := by
      rw [shard, if_pos (by omega : i + 1 = count)]
    rw [List.range'_one, List.map_singleton, hlast]
    exact .last _
  | succ n ih =>
    have hstop : shard count i = ⟨(shard count i).start, some (boundary count (i + 1))⟩ := by
      rw [shard, if_neg (by omega : ¬ i + 1 = count)]
    have hnext : (shard count (i + 1)).start = some (boundary count (i + 1)) := by simp [shard]
    rw [List.range'_succ, List.map_cons, hstop]
    refine .cons ?_ (hnext ▸ ih (by omega))
    by_cases h0 : i = 0
    · simp [shard, h0, boundary]
    · simpa [shard, h0] using boundary_lt hcount (by omega)

/-- The shards of the key space tile it. -/
theorem tiling_shards (n : Nat) : Tiling none (shards n) := by
  have hpos : 1 ≤ shardCount n := Nat.le_max_left _ _
  have hle : shardCount n ≤ 256 := Nat.max_le.2 ⟨by decide, Nat.min_le_right _ _⟩
  have := tiling_shard hle (i := 0) (n := shardCount n - 1) (by omega)
  rw [Nat.sub_add_cancel hpos, ← List.range_eq_range'] at this
  exact this

/-! ## Narrowing a tiling -/

theorem startingAt_of_stop_le {r : KeyRange} {stop key : Bytes} (h : r.stop = some stop)
    (hle : stop ≤ key) : r.startingAt key = none := by
  simp [KeyRange.startingAt, h, hle, List.not_lt]

/-- A range that ends behind a key and starts at or below it is cut at the key. -/
theorem startingAt_of_atOrAfter {r : KeyRange} {key : Bytes} (hstop : ∀ s ∈ r.stop, key < s)
    (hstart : AtOrAfter r.start key) : r.startingAt key = some { r with start := some key } := by
  obtain ⟨start, stop⟩ := r
  have hcut : ∀ s, start = some s → ¬ key < s := fun s hs => List.not_lt.2 (hstart s hs)
  cases stop with
  | none =>
    cases start with
    | none => rfl
    | some s => simp [KeyRange.startingAt, hcut s rfl]
  | some t =>
    have ht : key < t := hstop t rfl
    cases start with
    | none => simp [KeyRange.startingAt, ht]
    | some s => simp [KeyRange.startingAt, ht, hcut s rfl]

/-- A range that starts behind a key is left as it is. -/
theorem startingAt_of_lt {r : KeyRange} {start key : Bytes} (hstart : r.start = some start)
    (hlt : key < start) (hstop : ∀ s ∈ r.stop, start < s) : r.startingAt key = some r := by
  obtain ⟨_, stop⟩ := r
  cases hstart
  cases stop with
  | none => simp [KeyRange.startingAt, hlt]
  | some t =>
    have : key < t := List.lt_trans hlt (hstop t rfl)
    simp [KeyRange.startingAt, hlt, this]

/-- A tiling from a key on has nothing below that key to leave out. -/
theorem Tiling.filterMap_of_lt {start key : Bytes} {rs : List KeyRange}
    (h : Tiling (some start) rs) (hlt : key < start) : rs.filterMap (·.startingAt key) = rs := by
  generalize hs : some start = s at h
  induction h generalizing start with
  | last s =>
    have hr : (⟨s, none⟩ : KeyRange).startingAt key = some ⟨s, none⟩ :=
      startingAt_of_lt hs.symm hlt (by simp)
    rw [List.filterMap_cons, hr]
    rfl
  | @cons s stop rs hstop _ ih =>
    have hstart : start < stop := by simpa [← hs] using hstop
    have hr : (⟨s, some stop⟩ : KeyRange).startingAt key = some ⟨s, some stop⟩ :=
      startingAt_of_lt hs.symm hlt (by rintro _ ⟨⟩; exact hstart)
    rw [List.filterMap_cons, hr]
    simp only [ih (List.lt_trans hlt hstart) rfl]

/-- Narrowed to a key, a tiling tiles the keys from that key on. -/
theorem Tiling.startingAt {start : Option Bytes} {rs : List KeyRange} (h : Tiling start rs)
    {key : Bytes} (hkey : AtOrAfter start key) :
    Tiling (some key) (rs.filterMap (·.startingAt key)) := by
  induction h with
  | last start =>
    rw [List.filterMap_cons, startingAt_of_atOrAfter (by simp) hkey]
    exact .last _
  | @cons start stop rs _ hrs ih =>
    rw [List.filterMap_cons]
    by_cases hlt : key < stop
    · rw [startingAt_of_atOrAfter (by rintro _ ⟨⟩; exact hlt) hkey, hrs.filterMap_of_lt hlt]
      exact .cons hlt hrs
    · rw [startingAt_of_stop_le rfl (List.not_lt.1 hlt)]
      exact ih (atOrAfter_some.2 (List.not_lt.1 hlt))

end KeyRange

end NanoLedger
