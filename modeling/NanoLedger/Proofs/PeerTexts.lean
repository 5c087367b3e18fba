import Mathlib.Data.List.Forall2
import Mathlib.Data.List.Induction
import NanoLedger.Proofs.RecordFormats
import NanoLedger.Proofs.RecordText

/-!
# The texts of peers

The text of an IPv6 address leaves out the first longest run of at least two zero groups, whatever
its length and place (`Endpoint.abbreviates_iff`). Nothing is lost by that: split at its
colons, the text has an empty part exactly if a run was left out, the parts in front of the first
empty one and those behind the last one are the groups that were kept, and since there are eight
groups, the length of the run is what is missing (`Endpoint.Abbreviates.expand_eq`).

So a peer is told by its text (`PeerInfo.address_inj`): brackets tell an IPv6 address from an IPv4
address, and the port stands behind the last colon. `PeerInfo.address_exact` puts this in terms of
the keys from which peers are read.
-/

namespace NanoLedger

open ByteOrder

/-! ## Texts between separators -/

namespace Text

/-- What stands on either side of the first place of a character can be told. -/
theorem append_cons_inj {c : Char} {xs xs' ys ys' : List Char} (hxs : c ∉ xs) (hys : c ∉ ys)
    (h : xs ++ c :: xs' = ys ++ c :: ys') : xs = ys ∧ xs' = ys' := by
  have htake {zs : List Char} (hzs : c ∉ zs) (rest : List Char) :
      (zs ++ c :: rest).takeWhile (· ≠ c) = zs := by
    have hne : ∀ d ∈ zs, decide (d ≠ c) = true := fun d hd =>
      decide_eq_true fun heq => hzs (heq ▸ hd)
    rw [List.takeWhile_append_of_pos hne, List.takeWhile_cons_of_neg (by simp), List.append_nil]
  have hfront : xs = ys := by
    rw [← htake hxs xs', h, htake hys ys']
  subst hfront
  exact ⟨rfl, List.cons.inj (List.append_cancel_left h) |>.2⟩

end Text

/-! ## Groups -/

namespace Endpoint

/-- The digits of groups. -/
def groupDigits : List Char := "0123456789abcdef".toList

/-- The number that hexadecimal digits show. -/
def valueOf (digits : List Char) : Nat := digits.foldl (fun n c => 16 * n + Json.hexValue c) 0

theorem valueOf_concat (digits : List Char) (last : Char) :
    valueOf (digits ++ [last]) = 16 * valueOf digits + Json.hexValue last := by
  rw [valueOf, List.foldl_append, List.foldl_cons, List.foldl_nil, valueOf]

/-- Whether a text shows a group: in lower-case hexadecimal, without leading zeros. -/
structure ShowsGroup (text : String) (group : Nat) : Prop where
  ne_empty : text ≠ ""
  mem_groupDigits : ∀ c ∈ text.toList, c ∈ groupDigits
  value_eq : valueOf text.toList = group
  no_leading_zero : text.toList.head? = some '0' → text = "0"

/-- The digits of a number in base sixteen: they are digits of groups, they show the number, and the
first one is a zero only for zero. -/
theorem toDigits_shows (n : Nat) :
    (∀ c ∈ Nat.toDigits 16 n, c ∈ groupDigits) ∧
      valueOf (Nat.toDigits 16 n) = n ∧
      ((Nat.toDigits 16 n).head? = some '0' → n = 0) := by
  have hmem : ∀ n : Fin 16, Nat.digitChar n ∈ groupDigits := by decide +kernel
  have hvalue : ∀ n : Fin 16, Json.hexValue (Nat.digitChar n) = n := by decide +kernel
  have hzero : ∀ n : Fin 16, Nat.digitChar n = '0' → n.val = 0 := by decide +kernel
  induction n using Nat.strongRecOn with
  | ind n ih =>
    rw [Nat.toDigits_eq_if (by decide)]
    split
    · next hlt =>
      refine ⟨List.forall_mem_singleton.2 (hmem ⟨n, hlt⟩), ?_, fun h => ?_⟩
      · rw [valueOf, List.foldl_cons, List.foldl_nil, hvalue ⟨n, hlt⟩, Nat.mul_zero, Nat.zero_add]
      · exact hzero ⟨n, hlt⟩ (Option.some.inj h)
    · next hle =>
      let last : Fin 16 := ⟨n % 16, Nat.mod_lt n (by decide)⟩
      obtain ⟨hall, hshows, hhead⟩ := ih (n / 16) (by omega)
      refine ⟨List.forall_mem_append.2 ⟨hall, List.forall_mem_singleton.2 (hmem last)⟩, ?_, ?_⟩
      · rw [valueOf_concat, hshows, hvalue last]
        exact Nat.div_add_mod n 16
      · rw [List.head?_append_of_ne_nil _ Nat.toDigits_ne_nil]
        intro h
        have := hhead h
        omega

/-- A group is shown by its digits in base sixteen. -/
theorem showsGroup_lowerDigits (n : Nat) : ShowsGroup (Hex.lowerDigits n) n := by
  obtain ⟨hmem, hvalue, hzero⟩ := toDigits_shows n
  have hdigits : (Hex.lowerDigits n).toList = Nat.toDigits 16 n := String.toList_ofList
  refine ⟨fun hempty => ?_, hdigits ▸ hmem, hdigits ▸ hvalue, fun hhead => ?_⟩
  · rw [hempty] at hdigits
    exact Nat.toDigits_ne_nil hdigits.symm
  · rw [hzero (hdigits ▸ hhead)]
    rfl

/-- No other digits show a number, unless they begin with zeros. -/
theorem eq_toDigits {digits : List Char} (hne : digits ≠ []) (hmem : ∀ c ∈ digits, c ∈ groupDigits)
    (hhead : digits.head? = some '0' → digits = ['0']) :
    digits = Nat.toDigits 16 (valueOf digits) := by
  have hdigit {c : Char} (hc : c ∈ groupDigits) :
      Json.hexValue c < 16 ∧ Nat.digitChar (Json.hexValue c) = c := by
    have hall : groupDigits.all (fun c =>
        Json.hexValue c < 16 && Nat.digitChar (Json.hexValue c) == c) = true := by decide +kernel
    simpa using List.all_eq_true.1 hall c hc
  -- The value takes the digits from the front and `Nat.toDigits` splits off the last one, so both
  -- are followed from the back.
  induction digits using List.reverseRecOn with
  | nil => exact absurd rfl hne
  | append_singleton front last ih =>
    obtain ⟨hfront, hlast⟩ := List.forall_mem_append.1 hmem
    obtain ⟨hlt, hchar⟩ := hdigit (hlast last (.head _))
    rw [valueOf_concat]
    by_cases hnil : front = []
    · have hzero : 16 * valueOf [] + Json.hexValue last = Json.hexValue last := Nat.zero_add _
      rw [hnil, List.nil_append, hzero, Nat.toDigits_of_lt_base hlt, hchar]
    · have hhead' : front.head? ≠ some '0' := by
        intro h
        have htext := hhead (by rw [List.head?_append_of_ne_nil _ hnil, h])
        cases front with
        | nil => exact hnil rfl
        | cons c cs => cases cs <;> cases htext
      have hshown := ih hnil hfront fun h => absurd h hhead'
      have hpos : valueOf front ≠ 0 := by
        intro hzero
        rw [hzero] at hshown
        exact hhead' (by rw [hshown]; rfl)
      have hdiv : (16 * valueOf front + Json.hexValue last) / 16 = valueOf front := by omega
      have hmod : (16 * valueOf front + Json.hexValue last) % 16 = Json.hexValue last := by omega
      rw [Nat.toDigits_eq_if (by decide), if_neg (by omega), hdiv, hmod, ← hshown, hchar]

/-- A group is shown by its digits in base sixteen, and by no other text. -/
theorem showsGroup_iff {text : String} {n : Nat} :
    ShowsGroup text n ↔ text = Hex.lowerDigits n := by
  constructor
  · intro h
    have hne : text.toList ≠ [] := fun hnil => h.ne_empty (String.toList_eq_nil_iff.1 hnil)
    have hdigits := eq_toDigits hne h.mem_groupDigits fun hzero => by
      rw [h.no_leading_zero hzero]
      rfl
    rw [h.value_eq] at hdigits
    rw [Hex.lowerDigits, ← hdigits, String.ofList_toList]
  · rintro rfl
    exact showsGroup_lowerDigits n

/-! ## Runs of zeros -/

/-- Whether some zero groups stand from a position on. -/
def ZerosAt (groups : List Nat) (start count : Nat) : Prop :=
  ∀ i < count, groups[start + i]? = some 0

/-- Whether a run of zero groups is the first one of the longest ones. -/
structure FirstLongest (groups : List Nat) (start count : Nat) : Prop where
  zeros : ZerosAt groups start count
  longest : ∀ start' count', ZerosAt groups start' count' → count' ≤ count
  first : ∀ start', ZerosAt groups start' count → start ≤ start'

theorem le_length_takeWhile_zero {xs : List Nat} {n : Nat} :
    n ≤ (xs.takeWhile (· = 0)).length ↔ ∀ i < n, xs[i]? = some 0 := by
  induction xs generalizing n with
  | nil =>
    cases n with
    | zero => simp
    | succ n => exact iff_of_false (Nat.not_succ_le_zero n) fun h => nomatch h 0 (Nat.succ_pos n)
  | cons x xs ih =>
    cases n with
    | zero => simp
    | succ n =>
      by_cases hx : x = 0
      · rw [List.takeWhile_cons_of_pos (by simpa using hx), List.length_cons,
          Nat.add_le_add_iff_right, ih]
        constructor
        · rintro h (_ | i) hi
          · simp [hx]
          · simpa using h i (by omega)
        · intro h i hi
          simpa using h (i + 1) (by omega)
      · rw [List.takeWhile_cons_of_neg (by simpa using hx)]
        refine iff_of_false (by simp) fun h => hx ?_
        simpa using h 0 (Nat.succ_pos n)

/-- Zeros stand from a position on as far as their run goes. -/
theorem zerosAt_iff {groups : List Nat} {start count : Nat} :
    ZerosAt groups start count ↔ count ≤ zeroRun groups start := by
  rw [zeroRun, le_length_takeWhile_zero]
  simp only [List.getElem?_drop, ZerosAt]

/-- Among the positions below a bound, the first one from which most zeros stand. -/
theorem zeroRun_foldl_le (groups : List Nat) (n : Nat) :
    let best := (List.range n).foldl
      (fun best i => if zeroRun groups best < zeroRun groups i then i else best) 0
    best ≤ n ∧ ∀ i < n, zeroRun groups i ≤ zeroRun groups best ∧
      (zeroRun groups i = zeroRun groups best → best ≤ i) := by
  induction n with
  | zero => exact ⟨Nat.le_refl 0, nofun⟩
  | succ n ih =>
    obtain ⟨hle, hbest⟩ := ih
    rw [List.range_succ, List.foldl_append, List.foldl_cons, List.foldl_nil]
    generalize (List.range n).foldl _ 0 = best at hle hbest ⊢
    split
    · next hlt =>
      refine ⟨Nat.le_succ n, fun i hi => ?_⟩
      rcases Nat.lt_succ_iff_lt_or_eq.1 hi with hi | rfl
      · have := (hbest i hi).1
        exact ⟨by omega, by omega⟩
      · exact ⟨Nat.le_refl _, fun _ => Nat.le_refl _⟩
    · next hge =>
      refine ⟨Nat.le_succ_of_le hle, fun i hi => ?_⟩
      rcases Nat.lt_succ_iff_lt_or_eq.1 hi with hi | rfl
      · exact hbest i hi
      · exact ⟨Nat.not_lt.1 hge, fun _ => hle⟩

/-- The run that is left out is the first one of the longest ones. -/
theorem firstLongest_longestRun (groups : List Nat) :
    FirstLongest groups (longestRun groups) (zeroRun groups (longestRun groups)) := by
  obtain ⟨hle, hbest⟩ := zeroRun_foldl_le groups groups.length
  rw [← longestRun] at hle hbest
  have hbehind {i : Nat} (hi : groups.length ≤ i) : zeroRun groups i = 0 := by
    rw [zeroRun, List.drop_eq_nil_of_le hi]
    rfl
  refine ⟨zerosAt_iff.2 (Nat.le_refl _), fun i count h => ?_, fun i h => ?_⟩
  · have hcount := zerosAt_iff.1 h
    by_cases hi : i < groups.length
    · exact Nat.le_trans hcount (hbest i hi).1
    · rw [hbehind (Nat.not_lt.1 hi)] at hcount
      omega
  · have hcount := zerosAt_iff.1 h
    by_cases hi : i < groups.length
    · exact (hbest i hi).2 (Nat.le_antisymm (hbest i hi).1 hcount)
    · omega

/-! ## Abbreviated addresses -/

/-- Whether a text is the recommended one for the groups of an address: the texts of the groups with
colons between them, and a double colon for the first longest run of at least two zero groups. -/
def Abbreviates (text : String) (groups : List Nat) : Prop :=
  ∃ texts : List String, List.Forall₂ ShowsGroup texts groups ∧
    ∃ start count, FirstLongest groups start count ∧
      text = if count < 2 then String.intercalate ":" texts
        else String.intercalate ":" (texts.take start) ++ "::" ++
          String.intercalate ":" (texts.drop (start + count))

/-- There is one first longest run. -/
theorem FirstLongest.unique {groups : List Nat} {start start' count count' : Nat}
    (h : FirstLongest groups start count) (h' : FirstLongest groups start' count') :
    start = start' ∧ count = count' := by
  obtain rfl : count = count' :=
    Nat.le_antisymm (h'.longest _ _ h.zeros) (h.longest _ _ h'.zeros)
  exact ⟨Nat.le_antisymm (h.first _ h'.zeros) (h'.first _ h.zeros), rfl⟩

/-- The text of an address is the recommended one, and there is no other one. -/
theorem abbreviates_iff {text : String} {groups : List Nat} :
    Abbreviates text groups ↔ text = compressed groups := by
  have hshows : ShowsGroup = fun text n => text = Hex.lowerDigits n := by
    funext text n
    exact propext showsGroup_iff
  have htexts {texts : List String} :
      List.Forall₂ ShowsGroup texts groups ↔ texts = groups.map Hex.lowerDigits := by
    rw [hshows, ← List.forall₂_map_right_iff (f := Hex.lowerDigits) (R := Eq),
      List.forall₂_eq_eq_eq]
  constructor
  · rintro ⟨texts, hshows, start, count, hrun, rfl⟩
    obtain ⟨rfl, rfl⟩ := hrun.unique (firstLongest_longestRun groups)
    rw [htexts.1 hshows]
    simp only [compressed, colonText, List.map_take, List.map_drop]
  · rintro rfl
    refine ⟨_, htexts.2 rfl, _, _, firstLongest_longestRun groups, ?_⟩
    simp only [compressed, colonText, List.map_take, List.map_drop]

/-- What splitting at colons makes of texts with colons between them. -/
def pieces (texts : List (List Char)) : List (List Char) := if texts = [] then [[]] else texts

/-- What stands in front of the first colon is the first part. -/
theorem splitOn_append_colon {t : List Char} (h : ':' ∉ t) (rest : List Char) :
    (t ++ ':' :: rest).splitOn ':' = t :: rest.splitOn ':' := by
  have hne : ∀ c ∈ t, (c == ':') = false := fun c hc =>
    beq_false_of_ne fun heq => h (heq ▸ hc)
  exact List.splitOnP_append_cons_of_forall_mem hne _ (beq_self_eq_true _) _

theorem splitOn_intercalate_append {texts : List (List Char)} (h : ∀ t ∈ texts, ':' ∉ t)
    (rest : List Char) :
    ([':'].intercalate texts ++ ':' :: rest).splitOn ':' = pieces texts ++ rest.splitOn ':' := by
  induction texts with
  | nil => exact splitOn_append_colon (t := []) nofun rest
  | cons t texts ih =>
    obtain ⟨ht, htexts⟩ := List.forall_mem_cons.1 h
    cases texts with
    | nil =>
      rw [List.intercalate_singleton]
      exact splitOn_append_colon ht rest
    | cons t' texts =>
      rw [List.intercalate_cons_cons, List.append_assoc, List.append_assoc, List.singleton_append,
        splitOn_append_colon ht, ih htexts]
      rfl

theorem splitOn_intercalate {texts : List (List Char)} (h : ∀ t ∈ texts, ':' ∉ t) :
    ([':'].intercalate texts).splitOn ':' = pieces texts := by
  rw [pieces]
  split
  · next hnil => rw [hnil]; rfl
  · next hne => exact List.splitOn_intercalate ':' h hne

theorem reverse_pieces (texts : List (List Char)) :
    (pieces texts).reverse = pieces texts.reverse := by
  cases texts <;> simp [pieces]

/-- In front of a gap only the texts themselves are not empty. -/
theorem takeWhile_pieces {texts : List (List Char)} (h : ∀ t ∈ texts, t ≠ [])
    (rest : List (List Char)) : (pieces texts ++ [] :: rest).takeWhile (· ≠ []) = texts := by
  rw [pieces]
  split
  · next hnil => rw [hnil]; rfl
  · rw [List.takeWhile_append_of_pos fun t ht => decide_eq_true (h t ht),
      List.takeWhile_cons_of_neg (by simp), List.append_nil]

/-- The eight groups that a text shows: without a gap those between the colons, and else those in
front of the first gap and those behind the last one, with zeros in the middle. -/
def expand (text : List Char) : List Nat :=
  let parts := text.splitOn ':'
  if [] ∈ parts then
    let front := parts.takeWhile (· ≠ [])
    let back := (parts.reverse.takeWhile (· ≠ [])).reverse
    front.map valueOf ++ List.replicate (8 - (front.length + back.length)) 0 ++ back.map valueOf
  else parts.map valueOf

/-- Without a gap all groups are read back. -/
theorem expand_intercalate {texts : List (List Char)} (hcolon : ∀ t ∈ texts, ':' ∉ t)
    (hne : ∀ t ∈ texts, t ≠ []) (h : texts ≠ []) :
    expand ([':'].intercalate texts) = texts.map valueOf := by
  rw [expand, splitOn_intercalate hcolon, pieces, if_neg h, if_neg fun hmem => hne _ hmem rfl]

/-- Around a gap the groups on either side are read back, and what is missing are zeros. -/
theorem expand_gap {before after : List (List Char)} (hcolon : ∀ t ∈ before ++ after, ':' ∉ t)
    (hne : ∀ t ∈ before ++ after, t ≠ []) :
    expand ([':'].intercalate before ++ ':' :: ':' :: [':'].intercalate after) =
      before.map valueOf ++ List.replicate (8 - (before.length + after.length)) 0 ++
        after.map valueOf := by
  obtain ⟨hcolon, hcolon'⟩ := List.forall_mem_append.1 hcolon
  obtain ⟨hne, hne'⟩ := List.forall_mem_append.1 hne
  -- The double colon makes one empty part; a side without groups makes another one next to it.
  have hgap := splitOn_append_colon (t := []) nofun ([':'].intercalate after)
  rw [List.nil_append, splitOn_intercalate hcolon'] at hgap
  have hback :
      (pieces before ++ [] :: pieces after).reverse.takeWhile (· ≠ []) = after.reverse := by
    rw [List.reverse_append, List.reverse_cons, List.append_assoc, List.singleton_append,
      reverse_pieces]
    exact takeWhile_pieces (fun t ht => hne' t (List.mem_reverse.1 ht)) _
  rw [expand, splitOn_intercalate_append hcolon, hgap,
    if_pos (List.mem_append_right _ (.head _)), takeWhile_pieces hne, hback, List.reverse_reverse]

theorem colon_not_mem_groupDigits : ':' ∉ groupDigits := by decide +kernel

/-- The texts of groups hold the groups, are not empty and have no colons. -/
theorem ShowsGroup.texts {texts : List String} {groups : List Nat}
    (h : List.Forall₂ ShowsGroup texts groups) :
    (texts.map String.toList).map valueOf = groups ∧
      ∀ t ∈ texts.map String.toList, t ≠ [] ∧ ':' ∉ t := by
  induction h with
  | nil => exact ⟨rfl, nofun⟩
  | cons hshows _ ih =>
    obtain ⟨hvalue, htexts⟩ := ih
    refine ⟨?_, List.forall_mem_cons.2 ⟨⟨fun hnil => ?_, fun hmem => ?_⟩, htexts⟩⟩
    · rw [List.map_cons, List.map_cons, hshows.value_eq, hvalue]
    · exact hshows.ne_empty (String.toList_eq_nil_iff.1 hnil)
    · exact colon_not_mem_groupDigits (hshows.mem_groupDigits _ hmem)

/-- Zeros from a position on are what stands between the groups in front of it and behind them. -/
theorem ZerosAt.take_append_drop {groups : List Nat} {start count : Nat}
    (h : ZerosAt groups start count) :
    groups.take start ++ List.replicate count 0 ++ groups.drop (start + count) = groups := by
  have hmiddle : (groups.drop start).take count = List.replicate count 0 := by
    refine List.ext_getElem? fun i => ?_
    rw [List.getElem?_take, List.getElem?_replicate, List.getElem?_drop]
    split
    · next hi => exact h i hi
    · rfl
  rw [← hmiddle, ← List.drop_drop, List.append_assoc, List.take_append_drop,
    List.take_append_drop]

/-- The eight groups of an address are read back from an abbreviated text. -/
theorem Abbreviates.expand_eq {text : String} {groups : List Nat} (h : Abbreviates text groups)
    (hlength : groups.length = 8) : expand text.toList = groups := by
  obtain ⟨texts, hshows, start, count, hrun, rfl⟩ := h
  obtain ⟨hvalue, htexts⟩ := ShowsGroup.texts hshows
  have hparts : (texts.map String.toList).length = 8 := by
    rw [List.length_map, hshows.length_eq, hlength]
  split
  · rw [String.toList_intercalate, ← hvalue]
    exact expand_intercalate (fun t ht => (htexts t ht).2) (fun t ht => (htexts t ht).1)
      (List.ne_nil_of_length_pos (by omega))
  · next hcount =>
    -- The last zero of the run is one of the eight groups, so nothing is cut off at the end.
    have hend : start + count ≤ 8 := by
      have hlast := hrun.zeros (count - 1) (by omega)
      have := (List.getElem?_eq_some_iff.1 hlast).1
      omega
    let before := (texts.map String.toList).take start
    let after := (texts.map String.toList).drop (start + count)
    have hsub : ∀ t ∈ before ++ after, t ≠ [] ∧ ':' ∉ t := fun t ht => htexts t
      ((List.mem_append.1 ht).elim List.mem_of_mem_take List.mem_of_mem_drop)
    have hzeros : 8 - (before.length + after.length) = count := by
      rw [List.length_take, List.length_drop]
      omega
    have hgap := expand_gap (fun t ht => (hsub t ht).2) fun t ht => (hsub t ht).1
    rw [hzeros, List.map_take, List.map_drop, hvalue, hrun.zeros.take_append_drop] at hgap
    simpa [String.toList_append, String.toList_intercalate, before, after] using hgap

/-- Abbreviated texts consist of digits and colons. -/
theorem Abbreviates.forall_mem {text : String} {groups : List Nat} (h : Abbreviates text groups) :
    ∀ c ∈ text.toList, c ∈ groupDigits ∨ c = ':' := by
  obtain ⟨texts, hshows, start, count, -, rfl⟩ := h
  have hdigits : ∀ t ∈ texts, ∀ c ∈ t.toList, c ∈ groupDigits ∨ c = ':' := by
    induction hshows with
    | nil => exact nofun
    | cons hshow _ ih =>
      exact List.forall_mem_cons.2 ⟨fun c hc => .inl (hshow.mem_groupDigits c hc), ih⟩
  have hcolon : ∀ c ∈ ":".toList, c ∈ groupDigits ∨ c = ':' :=
    List.forall_mem_singleton.2 (.inr rfl)
  have hcolons : ∀ c ∈ "::".toList, c ∈ groupDigits ∨ c = ':' :=
    List.forall_mem_cons.2 ⟨.inr rfl, hcolon⟩
  have hjoined (ts : List String) (hts : ts ⊆ texts) :
      ∀ c ∈ (String.intercalate ":" ts).toList, c ∈ groupDigits ∨ c = ':' :=
    Text.forall_mem_intercalate hcolon fun t ht => hdigits t (hts ht)
  split
  · exact hjoined texts (List.Subset.refl _)
  · simp only [String.toList_append, List.forall_mem_append]
    exact ⟨⟨hjoined _ (List.take_subset _ _), hcolons⟩, hjoined _ (List.drop_subset _ _)⟩

/-! ## IPv4 addresses -/

theorem toList_dotted (bytes : Bytes) :
    (dotted bytes).toList = ['.'].intercalate (bytes.map fun b => (toString b.toNat).toList) := by
  rw [dotted, String.toList_intercalate, List.map_map]
  rfl

/-- Bytes are told by their decimal texts with dots between them. -/
theorem dotted_inj {bytes bytes' : Bytes} (hne : bytes ≠ []) (hne' : bytes' ≠ [])
    (h : dotted bytes = dotted bytes') : bytes = bytes' := by
  have hsplit {bs : Bytes} (hbs : bs ≠ []) :
      (dotted bs).toList.splitOn '.' = bs.map fun b => (toString b.toNat).toList := by
    rw [toList_dotted]
    refine List.splitOn_intercalate '.' (List.forall_mem_map.2 fun b _ hdot => ?_)
      (by simpa using hbs)
    exact absurd (Json.isDigit_of_mem_toString hdot) (by decide)
  have htexts := hsplit hne
  rw [h, hsplit hne'] at htexts
  refine ((List.map_inj_right fun b c hbc => ?_).1 htexts).symm
  exact UInt8.toNat_inj.1 (Json.toString_inj (String.toList_inj.1 hbc))

theorem forall_mem_dotted (bytes : Bytes) : ∀ c ∈ (dotted bytes).toList, c.isDigit ∨ c = '.' := by
  refine Text.forall_mem_intercalate (List.forall_mem_singleton.2 (.inr rfl)) fun t ht c hc => ?_
  obtain ⟨b, -, rfl⟩ := List.mem_map.1 ht
  exact .inl (Json.isDigit_of_mem_toString hc)

/-- The first twelve bytes of the addresses that stand for IPv4 addresses. -/
def mappedMark : Bytes := List.replicate 10 0 ++ [255, 255]

/-- An address that stands for an IPv4 address ends with it behind the mark. -/
theorem ipv4?_eq_some {e : Endpoint} {v4 : Bytes} :
    e.ipv4? = some v4 ↔ e.address.bytes = mappedMark ++ v4 := by
  rw [ipv4?]
  constructor
  · intro h
    split at h
    · next hmark =>
      rw [← Option.some.inj h, mappedMark, ← hmark, List.take_append_drop]
    · cases h
  · intro h
    have htake : e.address.bytes.take 12 = mappedMark := by rw [h]; rfl
    have hdrop : e.address.bytes.drop 12 = v4 := by rw [h]; rfl
    rw [hdrop]
    exact if_pos htake

end Endpoint

namespace PeerInfo

open Endpoint

/-! ## The texts of addresses -/

/-- The decimal text of an IPv4 address and a port. -/
def dottedText (a b c d : UInt8) (port : Nat) : String :=
  toString a.toNat ++ "." ++ toString b.toNat ++ "." ++ toString c.toNat ++ "." ++
    toString d.toNat ++ ":" ++ toString port

theorem dottedText_eq (a b c d : UInt8) (port : Nat) :
    dottedText a b c d port = dotted [a, b, c, d] ++ ":" ++ toString port := by
  simp only [dottedText, dotted, List.map_cons, List.map_nil, String.intercalate_cons_cons,
    String.intercalate_singleton, String.append_assoc]

/-- The text of a peer: an IPv4 address or an abbreviated IPv6 address in brackets, and the port. -/
theorem address_cases (p : PeerInfo) :
    (∃ a b c d, p.isIpv4 = true ∧ p.endpoint.address.bytes = mappedMark ++ [a, b, c, d] ∧
      p.address = dottedText a b c d p.endpoint.port.toNat) ∨
    ∃ text, p.isIpv4 = false ∧ Abbreviates text p.endpoint.groups ∧
      p.address = "[" ++ text ++ "]:" ++ toString p.endpoint.port.toNat := by
  rw [isIpv4, address]
  cases hv4 : p.endpoint.ipv4? with
  | none =>
    have htext : p.endpoint.addressText = compressed p.endpoint.groups := by
      rw [addressText, hv4]
    exact .inr ⟨_, rfl, abbreviates_iff.2 rfl, by rw [Endpoint.text, htext]⟩
  | some v4 =>
    have hbytes := ipv4?_eq_some.1 hv4
    have hlength : v4.length = 4 := by
      have := congrArg List.length hbytes
      rw [p.endpoint.address.length_eq, List.length_append] at this
      exact (Nat.add_left_cancel this).symm
    obtain ⟨a, b, c, d, rfl⟩ : ∃ a b c d, v4 = [a, b, c, d] := by
      rcases v4 with _ | ⟨a, _ | ⟨b, _ | ⟨c, _ | ⟨d, _ | ⟨e, v4⟩⟩⟩⟩⟩ <;> cases hlength
      exact ⟨a, b, c, d, rfl⟩
    exact .inl ⟨a, b, c, d, rfl, hbytes, (dottedText_eq ..).symm⟩

/-- Only IPv6 addresses have brackets. -/
theorem bracket_not_mem_dottedText (a b c d : UInt8) (port : Nat) :
    '[' ∉ (dottedText a b c d port).toList := by
  intro h
  rw [dottedText_eq, String.toList_append, String.toList_append] at h
  rcases List.mem_append.1 h with h | h
  · rcases List.mem_append.1 h with h | h
    · exact absurd (forall_mem_dotted _ _ h) (by decide)
    · exact absurd h (by decide +kernel)
  · exact absurd (Json.isDigit_of_mem_toString h) (by decide)

theorem bracket_mem (text : String) (port : Nat) :
    '[' ∈ ("[" ++ text ++ "]:" ++ toString port).toList := by
  simp [String.toList_append]

/-- An IPv4 address and a port are told by their text. -/
theorem dottedText_inj {a b c d a' b' c' d' : UInt8} {port port' : Nat}
    (h : dottedText a b c d port = dottedText a' b' c' d' port') :
    [a, b, c, d] = [a', b', c', d'] ∧ port = port' := by
  have hcolon (bs : Bytes) : ':' ∉ (dotted bs).toList := fun hmem =>
    absurd (forall_mem_dotted bs _ hmem) (by decide)
  rw [dottedText_eq, dottedText_eq, ← String.toList_inj] at h
  simp only [String.toList_append, List.append_assoc] at h
  obtain ⟨hdotted, hport⟩ := Text.append_cons_inj (hcolon _) (hcolon _) h
  exact ⟨dotted_inj nofun nofun (String.toList_inj.1 hdotted),
    Json.toString_inj (String.toList_inj.1 hport)⟩

/-- An abbreviated text in brackets and a port are told from what they make together. -/
theorem bracketed_inj {text text' : String} {groups groups' : List Nat} {port port' : Nat}
    (htext : Abbreviates text groups) (htext' : Abbreviates text' groups')
    (h : "[" ++ text ++ "]:" ++ toString port = "[" ++ text' ++ "]:" ++ toString port') :
    text = text' ∧ port = port' := by
  have hbracket {text : String} {groups : List Nat} (htext : Abbreviates text groups) :
      ']' ∉ text.toList := fun hmem => absurd (htext.forall_mem _ hmem) (by decide +kernel)
  rw [← String.toList_inj] at h
  simp only [String.toList_append, List.append_assoc] at h
  obtain ⟨hfront, hback⟩ := Text.append_cons_inj (hbracket htext) (hbracket htext')
    (List.append_cancel_left h)
  exact ⟨String.toList_inj.1 hfront,
    Json.toString_inj (String.toList_inj.1 (List.cons.inj hback).2)⟩

/-! ## Keys -/

/-- The big-endian number in the two bytes at a position. -/
def wordAt (key : Bytes) (i : Nat) : Nat := bigEndian.decode ((key.drop i).take 2)

/-- The eight groups of the address in a key. -/
def groupsIn (key : Bytes) : List Nat := (List.range 8).map fun i => wordAt key (2 * i)

/-- The port in a key. -/
def portIn (key : Bytes) : Nat := wordAt key 16

/-- The groups of the first bytes are the numbers in them. -/
theorem groupsOf_take {n : Nat} {bytes : Bytes} (h : 2 * n ≤ bytes.length) :
    groupsOf (bytes.take (2 * n)) = (List.range n).map fun i => wordAt bytes (2 * i) := by
  induction n generalizing bytes with
  | zero => rfl
  | succ n ih =>
    match bytes, h with
    | hi :: lo :: rest, h =>
      have hfirst : wordAt (hi :: lo :: rest) 0 = hi.toNat * 256 + lo.toNat := by
        simp [wordAt, ByteOrder.decode, arrange, Radix.ofBytes, Radix.capacity]
      have hlater (i : Nat) : wordAt (hi :: lo :: rest) (2 * (i + 1)) = wordAt rest (2 * i) := rfl
      have hrest : 2 * n ≤ rest.length := by
        simp only [List.length_cons] at h
        omega
      rw [List.range_succ_eq_map, List.map_cons, List.map_map, Nat.mul_zero, hfirst]
      exact congrArg (_ :: ·) (ih hrest)

/-- A byte string of even length is told by its groups. -/
theorem groupsOf_inj : ∀ {bytes bytes' : Bytes}, bytes.length % 2 = 0 →
    bytes.length = bytes'.length → groupsOf bytes = groupsOf bytes' → bytes = bytes'
  | [], [], _, _, _ => rfl
  | [_], [_], heven, _, _ => nomatch heven
  | hi :: lo :: rest, hi' :: lo' :: rest', heven, hlength, h => by
    have hlo : lo.toNat < 256 := lo.toNat_lt
    have hlo' : lo'.toNat < 256 := lo'.toNat_lt
    simp only [groupsOf, List.cons.injEq] at h
    obtain ⟨hword, hgroups⟩ := h
    have heven : rest.length % 2 = 0 := (Nat.add_mod_right rest.length 2).symm.trans heven
    have hrest : rest = rest' := groupsOf_inj heven (by simpa using hlength) hgroups
    have hhi : hi = hi' := UInt8.toNat_inj.1 (by omega)
    have hlo : lo = lo' := UInt8.toNat_inj.1 (by omega)
    rw [hhi, hlo, hrest]

theorem length_groups (e : Endpoint) : e.groups.length = 8 := by
  have hgroups := groupsOf_take (n := 8) (Nat.le_of_eq e.address.length_eq.symm)
  rw [List.take_of_length_le (Nat.le_of_eq e.address.length_eq)] at hgroups
  rw [groups, hgroups, List.length_map, List.length_range]

/-- A key with the bytes of an endpoint gives a peer, whose endpoint these bytes spell. -/
theorem exists_decode {key : Bytes} (h : 18 ≤ key.length) (value : Bytes) :
    ∃ p : PeerInfo, decode key value = .ok p ∧ p.entry.key = key.take 18 ∧
      p.endpoint.address.bytes = key.take 16 ∧ p.endpoint.groups = groupsIn key ∧
      p.endpoint.port.toNat = portIn key := by
  let word := (key.drop 16).take 2
  have hword : word.length = 2 := by
    rw [List.length_take, List.length_drop]
    omega
  have hlt := bigEndian.decode_lt word
  rw [hword] at hlt
  let address : Octets 16 := ⟨key.take 16, by rw [List.length_take]; omega⟩
  let p : PeerInfo := ⟨⟨address, UInt16.ofNat (bigEndian.decode word)⟩⟩
  have hport : p.endpoint.port.toNat = portIn key := UInt16.toNat_ofNat_of_lt' hlt
  have hkey : p.entry.key = key.take 18 := by
    have hspell : bigEndian.spell 2 (portIn key) = word := by
      rw [← encode_eq_spell, ← hword]
      exact bigEndian.encode_decode word
    simp only [entry, List.flatten_cons, List.flatten_nil, List.append_nil, hport, hspell]
    exact (List.take_add ..).symm
  refine ⟨p, (decode_eq_ok p key value).2 ⟨hkey ▸ List.take_prefix _ _, List.nil_prefix⟩, hkey,
    rfl, groupsOf_take (n := 8) (by omega), hport⟩

/-- A peer is told by its text. -/
theorem address_inj {p p' : PeerInfo} (h : p.address = p'.address) : p = p' := by
  have heq (hbytes : p.endpoint.address.bytes = p'.endpoint.address.bytes)
      (hport : p.endpoint.port.toNat = p'.endpoint.port.toNat) : p = p' := by
    obtain ⟨⟨_, _⟩⟩ := p
    obtain ⟨⟨_, _⟩⟩ := p'
    cases Octets.ext_bytes hbytes
    cases UInt16.toNat_inj.1 hport
    rfl
  rcases p.address_cases with ⟨a, b, c, d, -, hbytes, htext⟩ | ⟨text, -, habbr, htext⟩ <;>
    rcases p'.address_cases with
      ⟨a', b', c', d', -, hbytes', htext'⟩ | ⟨text', -, habbr', htext'⟩ <;>
    rw [htext, htext'] at h
  · obtain ⟨hv4, hport⟩ := dottedText_inj h
    exact heq (by rw [hbytes, hbytes', hv4]) hport
  · exact (bracket_not_mem_dottedText _ _ _ _ _ (h ▸ bracket_mem _ _)).elim
  · exact (bracket_not_mem_dottedText _ _ _ _ _ (h ▸ bracket_mem _ _)).elim
  · obtain ⟨rfl, hport⟩ := bracketed_inj habbr habbr' h
    have hgroups := habbr.expand_eq (length_groups _)
    rw [habbr'.expand_eq (length_groups _)] at hgroups
    have hsize := p.endpoint.address.length_eq
    refine heq (groupsOf_inj ?_ ?_ hgroups.symm) hport
    · rw [hsize]
    · rw [hsize, p'.endpoint.address.length_eq]

/-- A peer is an IPv4 peer if its key begins with the mark of mapped addresses. -/
theorem isIpv4_iff_mark {p : PeerInfo} {key : Bytes}
    (h : p.endpoint.address.bytes = key.take 16) : p.isIpv4 = true ↔ mappedMark <+: key := by
  have hprefix : mappedMark <+: key.take 16 ↔ mappedMark <+: key :=
    List.prefix_take_iff.trans (and_iff_left (by decide))
  rw [isIpv4, Option.isSome_iff_exists, ← hprefix]
  simp only [ipv4?_eq_some, h]
  exact ⟨fun ⟨v4, hv4⟩ => ⟨v4, hv4.symm⟩, fun ⟨v4, hv4⟩ => ⟨v4, hv4.symm⟩⟩

/-- Peers that are told by their texts are told by the first bytes of their keys. -/
theorem address_eq_iff {p p' : PeerInfo} {key key' value' : Bytes}
    (hentry : p.entry.key = key.take 18) (hkey' : 18 ≤ key'.length)
    (hdecode' : decode key' value' = .ok p') :
    p.address = p'.address ↔ key.take 18 = key'.take 18 := by
  obtain ⟨q, hdecode, hentry', -⟩ := exists_decode hkey' value'
  cases hdecode.symm.trans hdecode'
  rw [← hentry, ← hentry']
  constructor
  · intro h
    rw [address_inj h]
  · intro h
    have hbegins : p.entry.Begins key' value' :=
      ⟨by rw [h, hentry']; exact List.take_prefix _ _, List.nil_prefix⟩
    cases ((decode_eq_ok p key' value').2 hbegins).symm.trans hdecode'
    rfl

/-- The text of a peer, from its key. A key of at least 18 bytes gives a peer. The text is an IPv4
address in decimal and a port exactly if the peer is an IPv4 peer, that is if the key begins with
the mark of mapped addresses, and the numbers are those of the key. Otherwise the text is the
recommended one for the groups of the key, in brackets, and the port. What stands behind the last
colon is the field `port` of the JSON object. The texts of two peers are equal exactly if the first
18 bytes of their keys are, and an IPv6 peer never has the text of an IPv4 peer. -/
theorem address_exact (key value : Bytes) (hkey : 18 ≤ key.length) :
    ∃ p : PeerInfo, decode key value = .ok p ∧
      (p.isIpv4 = true ↔ mappedMark <+: key) ∧
      (p.isIpv4 = true ↔ ∃ a b c d port, p.address = dottedText a b c d port) ∧
      (∀ a b c d rest, key = mappedMark ++ a :: b :: c :: d :: rest →
        p.address = dottedText a b c d (portIn key)) ∧
      (¬ mappedMark <+: key → ∃ text, (∀ t, Abbreviates t (groupsIn key) ↔ t = text) ∧
        p.address = "[" ++ text ++ "]:" ++ toString (portIn key)) ∧
      (∃ front, p.address = front ++ ":" ++ toString (portIn key) ∧
        ':' ∉ (toString (portIn key)).toList ∧
        p.json = .object p.fields ∧ p.fields.lookup "port" = some (.number (portIn key))) ∧
      ∀ key' value' p', 18 ≤ key'.length → decode key' value' = .ok p' →
        (p.address = p'.address ↔ key.take 18 = key'.take 18) ∧
        (p.isIpv4 = true → p'.isIpv4 = false → p.address ≠ p'.address) := by
  obtain ⟨p, hdecode, hentry, hbytes, hgroups, hport⟩ := exists_decode hkey value
  have hmark := isIpv4_iff_mark hbytes
  refine ⟨p, hdecode, hmark, ?_, ?_, ?_, ?_, ?_⟩
  · rcases p.address_cases with ⟨a, b, c, d, hv4, -, htext⟩ | ⟨text, hv6, -, htext⟩
    · exact iff_of_true hv4 ⟨a, b, c, d, _, htext⟩
    · refine iff_of_false (by simp [hv6]) ?_
      rintro ⟨a, b, c, d, port, hdotted⟩
      exact bracket_not_mem_dottedText a b c d port (hdotted ▸ htext ▸ bracket_mem _ _)
  · rintro a b c d rest rfl
    rcases p.address_cases with ⟨a', b', c', d', -, hbytes', htext⟩ | ⟨text, hv6, -, -⟩
    · have hv4 : mappedMark ++ [a, b, c, d] = mappedMark ++ [a', b', c', d'] := by
        rw [← hbytes', hbytes]
        rfl
      cases List.append_cancel_left hv4
      rw [htext, hport]
    · rw [hmark.2 (List.prefix_append _ _)] at hv6
      cases hv6
  · intro hnot
    rcases p.address_cases with ⟨_, _, _, _, hv4, -, -⟩ | ⟨text, -, habbr, htext⟩
    · exact absurd (hmark.1 hv4) hnot
    · refine ⟨text, fun t => ?_, hport ▸ htext⟩
      rw [← hgroups, abbreviates_iff, abbreviates_iff.1 habbr]
  · have hcolon : ':' ∉ (toString (portIn key)).toList := fun hmem =>
      absurd (Json.isDigit_of_mem_toString hmem) (by decide)
    have hfield : p.fields.lookup "port" = some (.number (portIn key)) := hport ▸ rfl
    rcases p.address_cases with ⟨a, b, c, d, -, -, htext⟩ | ⟨text, -, -, htext⟩
    · refine ⟨dotted [a, b, c, d], ?_, hcolon, rfl, hfield⟩
      rw [htext, hport, dottedText_eq]
    · refine ⟨"[" ++ text ++ "]", ?_, hcolon, rfl, hfield⟩
      rw [htext, hport, show "]:" = "]" ++ ":" from rfl, ← String.append_assoc]
  · intro key' value' p' hkey' hdecode'
    refine ⟨address_eq_iff hentry hkey' hdecode', fun hv4 hv6 h => ?_⟩
    rw [address_inj h, hv6] at hv4
    cases hv4

/-- A peer of each kind. -/
theorem address_exact_twoPeers :
    let key : Bytes := [0, 0, 0, 0, 0, 0, 0, 0, 0, 0, 255, 255, 192, 168, 1, 20, 27, 163]
    let key' : Bytes := [32, 1, 13, 184, 0, 0, 0, 0, 0, 0, 0, 0, 0, 0, 0, 1, 210, 240]
    18 ≤ key.length ∧ 18 ≤ key'.length ∧
      ∃ p p', decode key [] = .ok p ∧ decode key' [] = .ok p' ∧
        p.isIpv4 = true ∧ p.address = "192.168.1.20:7075" ∧
        p'.isIpv4 = false ∧ p'.address = "[2001:db8::1]:54000" ∧ p.address ≠ p'.address := by
  intro key key'
  have hkey : 18 ≤ key.length := by decide
  have hkey' : 18 ≤ key'.length := by decide
  obtain ⟨p, hdecode, hmark, -, hdotted, -, -, hpair⟩ := address_exact key [] hkey
  obtain ⟨p', hdecode', hmark', -⟩ := address_exact key' [] hkey'
  have hv4 : p.isIpv4 = true := hmark.2 (by decide)
  have hv6 : p'.isIpv4 = false := Bool.eq_false_iff.2 fun h => absurd (hmark'.1 h) (by decide)
  have htext : p.address = "192.168.1.20:7075" := by
    have hport : portIn key = 7075 := rfl
    rw [hdotted 192 168 1 20 [27, 163] rfl, hport]
    decide +kernel
  have htext' : p'.address = "[2001:db8::1]:54000" := by
    have hread : decode key' [] = .ok ⟨⟨⟨key'.take 16, rfl⟩, 54000⟩⟩ := rfl
    cases hread.symm.trans hdecode'
    decide +kernel
  exact ⟨hkey, hkey', p, p', hdecode, hdecode', hv4, htext, hv6, htext',
    (hpair key' [] p' hkey' hdecode').2 hv4 hv6⟩

end PeerInfo

end NanoLedger
