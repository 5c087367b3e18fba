import Mathlib.Logic.ExistsUnique
import NanoLedger.Proofs.KeyRanges

/-!
# The range in which a key lies

Ranges that tile the keys from a start on place each of these keys in exactly one of them
(`KeyRange.Tiling.existsUnique_contains`) and no other key in any (`KeyRange.Tiling.not_contains`).
Narrowing a tiling to a key that lies in its `i`-th range leaves out the `i` ranges in front, cuts
that range, and keeps the others as they are (`KeyRange.Tiling.filterMap_startingAt`). The shards of
the key space are the case of a tiling without a start (`KeyRange.shards_place_keys`).
-/

namespace NanoLedger

namespace KeyRange

variable {start : Option Bytes} {rs : List KeyRange} {key : Bytes}

/-- The range at a position of a list contains a key. -/
def ContainsAt (rs : List KeyRange) (i : Nat) (key : Bytes) : Prop :=
  ∃ r, rs[i]? = some r ∧ r.Contains key

/-! ## Keys in the ranges of a tiling -/

/-- Below its start a tiling has no key. -/
theorem Tiling.not_contains {start : Bytes} (h : Tiling (some start) rs) (hlt : key < start) :
    ∀ r ∈ rs, ¬ r.Contains key := by
  generalize hs : some start = s at h
  induction h generalizing start with
  | last s =>
    subst hs
    simp [Contains, List.not_le.2 hlt]
  | @cons s stop rs hstop _ ih =>
    subst hs
    intro r hr
    rcases List.mem_cons.1 hr with rfl | hr
    · simp [Contains, List.not_le.2 hlt]
    · exact ih (List.lt_trans hlt hstop) rfl r hr

/-- A key lies in the first range of a tiling, and in no other one, if it lies below the end of that
range. -/
theorem contains_first_iff {stop : Option Bytes} (hkey : AtOrAfter start key) :
    (KeyRange.mk start stop).Contains key ↔ ∀ s ∈ stop, key < s :=
  and_iff_right hkey

/-- Every key from the start of a tiling on lies in exactly one of its ranges. -/
theorem Tiling.existsUnique_contains (h : Tiling start rs) (hkey : AtOrAfter start key) :
    ∃! i, ContainsAt rs i key := by
  induction h with
  | last start =>
    refine ⟨0, ⟨_, rfl, (contains_first_iff hkey).2 nofun⟩, ?_⟩
    rintro i ⟨r, hr, -⟩
    cases i with
    | zero => rfl
    | succ i => cases hr
  | @cons start stop rs _ hrs ih =>
    by_cases hlt : key < stop
    · refine ⟨0, ⟨_, rfl, (contains_first_iff hkey).2 (by rintro _ ⟨⟩; exact hlt)⟩, ?_⟩
      rintro i ⟨r, hr, hcontains⟩
      cases i with
      | zero => rfl
      | succ i => exact absurd hcontains (hrs.not_contains hlt r (List.mem_of_getElem? hr))
    · obtain ⟨i, ⟨r, hr, hcontains⟩, hunique⟩ := ih (atOrAfter_some.2 (List.not_lt.1 hlt))
      refine ⟨i + 1, ⟨r, hr, hcontains⟩, ?_⟩
      rintro j ⟨r', hr', hcontains'⟩
      cases j with
      | zero =>
        cases hr'
        exact absurd (hcontains'.2 stop rfl) hlt
      | succ j => exact congrArg Nat.succ (hunique j ⟨r', hr', hcontains'⟩)

/-- Every range of a tiling has a key: the one at which it starts. -/
theorem Tiling.exists_contains (h : Tiling start rs) : ∀ r ∈ rs, ∃ key, r.Contains key := by
  have first (start : Option Bytes) : AtOrAfter start (start.getD []) := by
    rintro s ⟨⟩
    exact List.le_refl s
  induction h with
  | last start =>
    intro r hr
    obtain rfl := List.mem_singleton.1 hr
    exact ⟨_, (contains_first_iff (first start)).2 nofun⟩
  | @cons start stop rs hlt _ ih =>
    intro r hr
    rcases List.mem_cons.1 hr with rfl | hr
    · exact ⟨_, (contains_first_iff (first start)).2 (by rintro _ ⟨⟩; exact hlt)⟩
    · exact ih r hr

/-- The ranges of a tiling ascend: all keys of a range lie below those of the ranges behind it. -/
theorem Tiling.ascending (h : Tiling start rs) :
    rs.Pairwise fun r r' => ∀ k k', r.Contains k → r'.Contains k' → k < k' := by
  induction h with
  | last start => exact List.pairwise_singleton _ _
  | @cons start stop rs _ hrs ih =>
    refine List.pairwise_cons.2 ⟨fun r' hr' k k' hk hk' => ?_, ih⟩
    have hstop : stop ≤ k' := List.not_lt.1 fun hlt => hrs.not_contains hlt r' hr' hk'
    exact Std.lt_of_lt_of_le (hk.2 stop rfl) hstop

/-- Each range of a tiling ends where the next one starts. -/
theorem Tiling.stop_eq_start (h : Tiling start rs) {i : Nat} {r r' : KeyRange}
    (hr : rs[i]? = some r) (hr' : rs[i + 1]? = some r') :
    ∃ key, r.stop = some key ∧ r'.start = some key := by
  induction h generalizing i with
  | last start => cases hr'
  | @cons start stop rs _ hrs ih =>
    cases i with
    | zero =>
      obtain ⟨_, _, rfl⟩ := hrs.exists_cons
      cases hr
      cases hr'
      exact ⟨stop, rfl, rfl⟩
    | succ i => exact ih hr hr'

/-! ## Narrowed tilings -/

/-- Narrowed to a key that lies in one of its ranges, a tiling is that range from the key on and
then the ranges behind it. -/
theorem Tiling.filterMap_startingAt (h : Tiling start rs) {i : Nat} {r : KeyRange}
    (hr : rs[i]? = some r) (hcontains : r.Contains key) :
    rs.filterMap (·.startingAt key) = { r with start := some key } :: rs.drop (i + 1) := by
  have hcut : r.startingAt key = some { r with start := some key } :=
    startingAt_of_atOrAfter hcontains.2 hcontains.1
  induction h generalizing i with
  | last start =>
    cases i with
    | succ i => cases hr
    | zero =>
      cases hr
      rw [List.filterMap_cons, hcut]
      rfl
  | @cons start stop rs _ hrs ih =>
    cases i with
    | zero =>
      cases hr
      rw [List.filterMap_cons, hcut, hrs.filterMap_of_lt (hcontains.2 stop rfl)]
      rfl
    | succ i =>
      -- the key lies behind the first range, since it lies in one of the others
      have hle : stop ≤ key := List.not_lt.1 fun hlt =>
        hrs.not_contains hlt r (List.mem_of_getElem? hr) hcontains
      rw [List.filterMap_cons, startingAt_of_stop_le rfl hle, List.drop_succ_cons]
      exact ih hr

/-! ## The shards of the key space -/

/-- The shards narrowed to a start key, without those that are below it. -/
def shardsFrom (n : Nat) (start : Bytes) : List KeyRange :=
  (shards n).filterMap (·.startingAt start)

/-- Where keys lie among the shards, of which there are as many as are asked for, but at least one
and at most 256. They ascend, each one ends where the next one starts, none is empty, and every key
lies in exactly one.

Narrowed to a start key, and without those that are below it, they hold the keys from the start key
on, each in exactly one, and no others. None is empty, and those in front of the shard of the start
key are missing. -/
theorem shards_place_keys (n : Nat) :
    (shards n).length = max 1 (min n 256) ∧
    (shards n).Pairwise (fun r r' => ∀ k k', r.Contains k → r'.Contains k' → k < k') ∧
    (∀ i r r', (shards n)[i]? = some r → (shards n)[i + 1]? = some r' →
      ∃ key, r.stop = some key ∧ r'.start = some key) ∧
    (∀ r ∈ shards n, ∃ key, r.Contains key) ∧
    (∀ key, ∃! i, ContainsAt (shards n) i key) ∧
    ∀ start,
      (∀ key, start ≤ key → ∃! i, ContainsAt (shardsFrom n start) i key) ∧
      (∀ key, key < start → ∀ r ∈ shardsFrom n start, ¬ r.Contains key) ∧
      (∀ r ∈ shardsFrom n start, ∃ key, r.Contains key) ∧
      ∀ i r, (shards n)[i]? = some r → r.Contains start →
        (shardsFrom n start).length = (shards n).length - i := by
  have h : Tiling none (shards n) := tiling_shards n
  have hlength : (shards n).length = max 1 (min n 256) := by simp [shards, shardCount]
  refine ⟨hlength, h.ascending, fun i r r' => h.stop_eq_start, h.exists_contains,
    fun key => h.existsUnique_contains (atOrAfter_none key), fun start => ?_⟩
  have hfrom : Tiling (some start) (shardsFrom n start) := h.startingAt (atOrAfter_none start)
  refine ⟨fun key hle => hfrom.existsUnique_contains (atOrAfter_some.2 hle),
    fun key hlt => hfrom.not_contains hlt, hfrom.exists_contains, ?_⟩
  intro i r hr hcontains
  have hi : i < (shards n).length := (List.getElem?_eq_some_iff.1 hr).1
  rw [shardsFrom, h.filterMap_startingAt hr hcontains, List.length_cons, List.length_drop]
  omega

/-- A start key in the second one of four shards leaves three of them. -/
theorem shards_place_keys_four :
    (shards 4)[1]? = some ⟨some [64], some [128]⟩ ∧
      (⟨some [64], some [128]⟩ : KeyRange).Contains [70, 1] ∧
      (shardsFrom 4 [70, 1]).length = 3 := by
  have hr : (shards 4)[1]? = some ⟨some [64], some [128]⟩ := by decide
  have hcontains : (⟨some [64], some [128]⟩ : KeyRange).Contains [70, 1] := by decide
  obtain ⟨-, -, -, -, -, hnarrowed⟩ := shards_place_keys 4
  exact ⟨hr, hcontains, (hnarrowed [70, 1]).2.2.2 1 _ hr hcontains⟩

end KeyRange

end NanoLedger
