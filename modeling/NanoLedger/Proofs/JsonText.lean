import NanoLedger.Json

/-!
# The text of JSON values

The compact text of a value tells where it ends and which value it is, whatever text follows it: a
number ends behind its last digit, and any other value with a character that is not taken for a part
of it. So different values have different texts (`Json.chars_inj`). Since a value begins with a
character that tells its form (`Json.formOf?`), only values of one form are to be compared, and the
comparison goes by recursion on the first of them.

Every character of a text is a visible one or stands for a character of one of the strings of the
value (`Json.shows_chars`). Control characters are escaped, so no text has any and each can stand on
a line of its own, whatever strings there are (`Json.printable_chars`). Values whose strings are made
of visible characters have texts of such characters (`Json.visible_chars`).
-/

namespace NanoLedger

namespace Json

variable {rest rest' : List Char}

/-! ## Numbers -/

/-- Whether no digit comes first in a text. -/
def NoDigit (rest : List Char) : Prop := ∀ c ∈ rest.head?, c.isDigit = false

theorem noDigit_cons {c : Char} (h : c.isDigit = false) : NoDigit (c :: rest) := by
  rintro _ ⟨⟩
  exact h

theorem isDigit_of_mem_toString {n : Nat} {c : Char} (h : c ∈ (toString n).toList) :
    c.isDigit := by
  rw [Nat.toString_eq_ofList_toDigits, String.toList_ofList] at h
  exact Nat.isDigit_of_mem_toDigits (by decide) (by decide) h

/-- The digits in front of what follows a number are those of the number. -/
theorem takeWhile_number (n : Nat) (hrest : NoDigit rest) :
    ((toString n).toList ++ rest).takeWhile Char.isDigit = (toString n).toList := by
  rw [List.takeWhile_append_of_pos fun c => isDigit_of_mem_toString]
  cases rest with
  | nil => exact List.append_nil _
  | cons c rest =>
    rw [List.takeWhile_cons_of_neg (by simpa using hrest c rfl), List.append_nil]

theorem toString_inj {m n : Nat} (h : toString m = toString n) : m = n := by
  rw [Nat.toString_eq_ofList_toDigits, Nat.toString_eq_ofList_toDigits] at h
  have hvalue := congrArg (fun s => Nat.ofDigitChars 10 s.toList 0) h
  simpa [Nat.ofDigitChars_toDigits] using hvalue

theorem number_append_inj {m n : Nat} (hrest : NoDigit rest) (hrest' : NoDigit rest')
    (h : (toString m).toList ++ rest = (toString n).toList ++ rest') : m = n ∧ rest = rest' := by
  have hdigits := congrArg (List.takeWhile Char.isDigit) h
  rw [takeWhile_number m hrest, takeWhile_number n hrest'] at hdigits
  rw [hdigits] at h
  exact ⟨toString_inj (String.toList_inj.1 hdigits), List.append_cancel_left h⟩

/-! ## Strings -/

/-- The number below 16 that a lower-case hexadecimal digit shows. -/
def hexValue (c : Char) : Nat := if c.isDigit then c.toNat - '0'.toNat else c.toNat - 'a'.toNat + 10

/-- Read a character back from a JSON string; the quote that ends a string is none. -/
def unescape : List Char → Option (Char × List Char)
  | '\\' :: 'n' :: rest => some ('\n', rest)
  | '\\' :: 'r' :: rest => some ('\r', rest)
  | '\\' :: 't' :: rest => some ('\t', rest)
  | '\\' :: 'b' :: rest => some (Char.ofNat 8, rest)
  | '\\' :: 'f' :: rest => some (Char.ofNat 12, rest)
  | '\\' :: 'u' :: '0' :: '0' :: hi :: lo :: rest =>
    some (Char.ofNat (16 * hexValue hi + hexValue lo), rest)
  | '\\' :: c :: rest => some (c, rest)
  | '"' :: _ => none
  | c :: rest => some (c, rest)
  | [] => none

theorem hexValue_digitChar : ∀ n : Fin 32,
    16 * hexValue (Nat.digitChar (n.val / 16)) + hexValue (Nat.digitChar (n.val % 16)) = n := by
  decide

theorem unescape_escape (c : Char) (rest : List Char) :
    unescape (escape c ++ rest) = some (c, rest) := by
  fun_cases escape c with
  | case1 | case2 | case3 | case4 | case5 =>
    subst_vars
    rfl
  | case6 _ _ _ _ _ h =>
    rw [← Char.ofNat_toNat c, h]
    rfl
  | case7 _ _ _ _ _ _ h =>
    rw [← Char.ofNat_toNat c, h]
    rfl
  | case8 _ _ _ _ _ _ _ h =>
    show some (Char.ofNat _, rest) = some (c, rest)
    rw [hexValue_digitChar ⟨c.toNat, h⟩, Char.ofNat_toNat]
  | case9 _ hbackslash => simp [unescape, hbackslash]

/-- A quoted text ends at its closing quote, and no two texts are quoted alike. -/
theorem flatMap_escape_inj {s t : List Char}
    (h : s.flatMap escape ++ '"' :: rest = t.flatMap escape ++ '"' :: rest') :
    s = t ∧ rest = rest' := by
  induction s generalizing t with
  | nil =>
    cases t with
    | nil =>
      cases h
      exact ⟨rfl, rfl⟩
    | cons d t =>
      rw [List.flatMap_cons, List.append_assoc] at h
      have hread := congrArg unescape h
      rw [unescape_escape] at hread
      cases hread
  | cons c s ih =>
    cases t with
    | nil =>
      rw [List.flatMap_cons, List.append_assoc] at h
      have hread := congrArg unescape h
      rw [unescape_escape] at hread
      cases hread
    | cons d t =>
      rw [List.flatMap_cons, List.flatMap_cons, List.append_assoc, List.append_assoc] at h
      have hread := congrArg unescape h
      rw [unescape_escape, unescape_escape, Option.some.injEq, Prod.mk.injEq] at hread
      obtain ⟨rfl, hread⟩ := hread
      obtain ⟨rfl, hrest⟩ := ih hread
      exact ⟨rfl, hrest⟩

theorem quote_append_inj {s t : String} (h : quote s ++ rest = quote t ++ rest') :
    s = t ∧ rest = rest' := by
  simp only [quote, List.cons_append, List.append_assoc, List.cons.injEq, true_and] at h
  obtain ⟨htext, hrest⟩ := flatMap_escape_inj h
  exact ⟨String.toList_inj.1 htext, hrest⟩

/-! ## Forms -/

/-- The form of a value. -/
inductive Form where
  | null
  | bool
  | number
  | text
  | list
  | object

/-- The form of a value. -/
def form : Json → Form
  | null => .null
  | bool _ => .bool
  | number _ => .number
  | text _ => .text
  | list _ => .list
  | object _ => .object

/-- The form of the values that begin with a character. -/
def formOf? : Char → Option Form
  | 'n' => some .null
  | 't' | 'f' => some .bool
  | '"' => some .text
  | '[' => some .list
  | '\x7b' => some .object
  | c => if c.isDigit then some .number else none

theorem formOf?_digit {c : Char} (h : c.isDigit) : formOf? c = some .number := by
  fun_cases formOf? c with
  | case1 | case2 | case3 | case4 | case5 | case6 => exact absurd h (by decide)
  | case7 => rfl
  | case8 => contradiction

/-- A value begins with a character of its form. -/
theorem exists_chars_eq_cons (x : Json) : ∃ c cs, x.chars = c :: cs ∧ formOf? c = some x.form := by
  cases x with
  | null => exact ⟨_, _, rfl, rfl⟩
  | bool b => cases b <;> exact ⟨_, _, rfl, rfl⟩
  | number n =>
    have hne : (toString n).toList ≠ [] := by
      rw [Nat.toString_eq_ofList_toDigits, String.toList_ofList]
      exact Nat.toDigits_ne_nil
    obtain ⟨c, cs, hcons⟩ := List.exists_cons_of_ne_nil hne
    have hmem : c ∈ (toString n).toList := by
      rw [hcons]
      exact .head _
    exact ⟨c, cs, hcons, formOf?_digit (isDigit_of_mem_toString hmem)⟩
  | text s => exact ⟨_, _, rfl, rfl⟩
  | list xs => cases xs <;> exact ⟨_, _, rfl, rfl⟩
  | object fields => rcases fields with _ | ⟨⟨name, x⟩, fields⟩ <;> exact ⟨_, _, rfl, rfl⟩

theorem form_eq {x y : Json} (h : x.chars ++ rest = y.chars ++ rest') : x.form = y.form := by
  obtain ⟨c, cs, hx, hform⟩ := x.exists_chars_eq_cons
  obtain ⟨d, ds, hy, hform'⟩ := y.exists_chars_eq_cons
  rw [hx, hy, List.cons_append, List.cons_append, List.cons.injEq] at h
  rw [h.1, hform'] at hform
  exact (Option.some.inj hform).symm

/-- A character of no form begins no value. -/
theorem chars_append_ne_cons (x : Json) {c : Char} {cs : List Char} (h : formOf? c = none) :
    x.chars ++ rest ≠ c :: cs := by
  intro heq
  obtain ⟨d, ds, hx, hform⟩ := x.exists_chars_eq_cons
  rw [hx, List.cons_append, List.cons.injEq] at heq
  rw [heq.1, h] at hform
  cases hform

/-! ## Values -/

theorem noDigit_itemChars (xs : List Json) : NoDigit (itemChars xs ++ rest) := by
  cases xs <;> exact noDigit_cons rfl

theorem noDigit_fieldChars (fields : List (String × Json)) :
    NoDigit (fieldChars fields ++ rest) := by
  rcases fields with _ | ⟨⟨name, x⟩, fields⟩ <;> exact noDigit_cons rfl

mutual

/-- The text of a value ends where the value does, if no digit follows, and tells the value. -/
theorem chars_append_inj : ∀ (x y : Json) {rest rest' : List Char}, NoDigit rest → NoDigit rest' →
    x.chars ++ rest = y.chars ++ rest' → x = y ∧ rest = rest'
  | null, y, _, _, _, _, h => by
    cases y with
    | null => exact ⟨rfl, List.append_cancel_left h⟩
    | bool | number | text | list | object => cases form_eq h
  | bool b, y, _, _, _, _, h => by
    cases y with
    | bool b' =>
      cases b <;> cases b'
      · exact ⟨rfl, List.append_cancel_left h⟩
      · cases h
      · cases h
      · exact ⟨rfl, List.append_cancel_left h⟩
    | null | number | text | list | object => cases form_eq h
  | number m, y, _, _, hrest, hrest', h => by
    cases y with
    | number n =>
      obtain ⟨rfl, hrest⟩ := number_append_inj hrest hrest' h
      exact ⟨rfl, hrest⟩
    | null | bool | text | list | object => cases form_eq h
  | text s, y, _, _, _, _, h => by
    cases y with
    | text t =>
      obtain ⟨rfl, hrest⟩ := quote_append_inj h
      exact ⟨rfl, hrest⟩
    | null | bool | number | list | object => cases form_eq h
  | list xs, y, _, _, _, _, h => by
    have hitems := itemChars_append_inj xs
    cases y with
    | list ys =>
      cases xs with
      | nil =>
        cases ys with
        | nil => exact ⟨rfl, List.append_cancel_left h⟩
        | cons y ys =>
          simp only [chars, List.cons_append, List.append_assoc, List.cons.injEq, true_and] at h
          exact absurd h.symm (y.chars_append_ne_cons rfl)
      | cons x xs =>
        cases ys with
        | nil =>
          simp only [chars, List.cons_append, List.append_assoc, List.cons.injEq, true_and] at h
          exact absurd h (x.chars_append_ne_cons rfl)
        | cons y ys =>
          obtain ⟨heq, hrest⟩ := hitems (y :: ys) (congrArg (',' :: ·) (List.cons.inj h).2)
          exact ⟨congrArg list heq, hrest⟩
    | null | bool | number | text | object => cases form_eq h
  | object fields, y, _, _, _, _, h => by
    have hfields := fieldChars_append_inj fields
    cases y with
    | object fields' =>
      rcases fields with _ | ⟨⟨name, x⟩, fields⟩ <;> rcases fields' with _ | ⟨⟨name', y⟩, fields'⟩
      · exact ⟨rfl, List.append_cancel_left h⟩
      · cases h
      · cases h
      · have htail := congrArg (',' :: ·) (List.cons.inj h).2
        obtain ⟨heq, hrest⟩ := hfields ((name', y) :: fields') htail
        exact ⟨congrArg object heq, hrest⟩
    | null | bool | number | text | list => cases form_eq h

theorem itemChars_append_inj : ∀ (xs ys : List Json) {rest rest' : List Char},
    itemChars xs ++ rest = itemChars ys ++ rest' → xs = ys ∧ rest = rest'
  | [], ys, _, _, h => by
    cases ys with
    | nil => exact ⟨rfl, List.append_cancel_left h⟩
    | cons y ys => cases h
  | x :: xs, ys, _, _, h => by
    cases ys with
    | nil => cases h
    | cons y ys =>
      simp only [itemChars, List.cons_append, List.append_assoc, List.cons.injEq, true_and] at h
      obtain ⟨rfl, htail⟩ := chars_append_inj x y (noDigit_itemChars xs) (noDigit_itemChars ys) h
      obtain ⟨rfl, hrest⟩ := itemChars_append_inj xs ys htail
      exact ⟨rfl, hrest⟩

theorem fieldChars_append_inj : ∀ (fields fields' : List (String × Json)) {rest rest' : List Char},
    fieldChars fields ++ rest = fieldChars fields' ++ rest' → fields = fields' ∧ rest = rest'
  | [], fields', _, _, h => by
    rcases fields' with _ | ⟨⟨name', y⟩, fields'⟩
    · exact ⟨rfl, List.append_cancel_left h⟩
    · cases h
  | (name, x) :: fields, fields', _, _, h => by
    rcases fields' with _ | ⟨⟨name', y⟩, fields'⟩
    · cases h
    · simp only [fieldChars, List.cons_append, List.append_assoc, List.cons.injEq, true_and] at h
      obtain ⟨rfl, hvalue⟩ := quote_append_inj h
      obtain ⟨rfl, htail⟩ := chars_append_inj x y (noDigit_fieldChars fields)
        (noDigit_fieldChars fields') (List.cons.inj hvalue).2
      obtain ⟨rfl, hrest⟩ := fieldChars_append_inj fields fields' htail
      exact ⟨rfl, hrest⟩

end

/-- Different values have different texts. -/
theorem chars_inj {x y : Json} : x.chars = y.chars ↔ x = y := by
  constructor
  · intro h
    have hnil : NoDigit [] := nofun
    exact (chars_append_inj x y hnil hnil (by rw [h])).1
  · rintro rfl
    rfl

/-! ## Visible characters -/

/-- Whether a text is made of visible characters of ASCII; a blank is none of them. -/
def Visible (cs : List Char) : Prop := ∀ c ∈ cs, 32 < c.toNat ∧ c.toNat < 127

instance (cs : List Char) : Decidable (Visible cs) := List.decidableBAll _ cs

@[simp] theorem visible_cons {c : Char} {cs : List Char} :
    Visible (c :: cs) ↔ (32 < c.toNat ∧ c.toNat < 127) ∧ Visible cs := List.forall_mem_cons

@[simp] theorem visible_append {cs ds : List Char} :
    Visible (cs ++ ds) ↔ Visible cs ∧ Visible ds := List.forall_mem_append

theorem visible_number (n : Nat) : Visible (toString n).toList := by
  intro c hc
  have hdigit := isDigit_of_mem_toString hc
  simp only [Char.isDigit, Bool.and_eq_true, decide_eq_true_eq, ge_iff_le, UInt32.le_iff_toNat_le]
    at hdigit
  exact ⟨Nat.lt_of_lt_of_le (by decide) hdigit.1, Nat.lt_of_le_of_lt hdigit.2 (by decide)⟩

theorem visible_escape {c : Char} (hlow : 32 < c.toNat) (hhigh : c.toNat < 127) :
    Visible (escape c) := by
  fun_cases escape c with
  | case1 | case2 | case3 | case4 | case5 | case6 | case7 => decide
  | case8 => omega
  | case9 => simp [hlow, hhigh, Visible]

/-- Whether a text has no control characters. -/
def Printable (cs : List Char) : Prop := ∀ c ∈ cs, 32 ≤ c.toNat

instance (cs : List Char) : Decidable (Printable cs) := List.decidableBAll _ cs

/-- Control characters are escaped. -/
theorem printable_escape (c : Char) : Printable (escape c) := by
  fun_cases escape c with
  | case1 | case2 | case3 | case4 | case5 | case6 | case7 => decide
  | case8 _ _ _ _ _ _ _ h =>
    have hdigit : ∀ n : Fin 32, Printable ['\\', 'u', '0', '0', Nat.digitChar (n.val / 16),
        Nat.digitChar (n.val % 16)] := by decide
    exact hdigit ⟨c.toNat, h⟩
  | case9 _ _ _ _ _ _ _ h => simpa [Printable] using h

mutual

/-- The strings of a value, the names of its fields included. -/
def strings : Json → List String
  | null | bool _ | number _ => []
  | text s => [s]
  | list xs => itemStrings xs
  | object fields => fieldStrings fields

/-- The strings of items. -/
def itemStrings : List Json → List String
  | [] => []
  | x :: xs => strings x ++ itemStrings xs

/-- The names of fields and the strings of their values. -/
def fieldStrings : List (String × Json) → List String
  | [] => []
  | (name, x) :: fields => name :: strings x ++ fieldStrings fields

end

/-- Whether every character of a text is visible or stands for one of some strings. -/
def Shows (strings : List String) (cs : List Char) : Prop :=
  ∀ c ∈ cs, (32 < c.toNat ∧ c.toNat < 127) ∨ ∃ s ∈ strings, ∃ d ∈ s.toList, c ∈ escape d

theorem shows_of_visible {cs : List Char} (h : Visible cs) (strings : List String) :
    Shows strings cs := fun c hc => .inl (h c hc)

theorem shows_append {ss : List String} {cs ds : List Char} :
    Shows ss (cs ++ ds) ↔ Shows ss cs ∧ Shows ss ds := List.forall_mem_append

theorem shows_cons {ss : List String} {c : Char} {cs : List Char}
    (h : 32 < c.toNat ∧ c.toNat < 127) : Shows ss (c :: cs) ↔ Shows ss cs :=
  List.forall_mem_cons.trans (and_iff_right (.inl h))

theorem Shows.mono {ss ss' : List String} {cs : List Char} (h : Shows ss cs) (hss : ss ⊆ ss') :
    Shows ss' cs := by
  intro c hc
  obtain hvisible | ⟨s, hs, hd⟩ := h c hc
  · exact .inl hvisible
  · exact .inr ⟨s, hss hs, hd⟩

theorem shows_quote {ss : List String} {s : String} (h : s ∈ ss) : Shows ss (quote s) := by
  rw [quote, shows_append, shows_cons (by decide)]
  refine ⟨fun c hc => ?_, shows_of_visible (by decide) ss⟩
  obtain ⟨d, hd, hc⟩ := List.mem_flatMap.1 hc
  exact .inr ⟨s, h, d, hd, hc⟩

mutual

/-- The text of a value shows its strings. -/
theorem shows_chars : ∀ x : Json, Shows x.strings x.chars
  | null => shows_of_visible (by decide) _
  | bool true => shows_of_visible (by decide) _
  | bool false => shows_of_visible (by decide) _
  | number n => shows_of_visible (visible_number n) _
  | text s => shows_quote (.head _)
  | list xs => by
    have hitems := shows_itemChars xs
    cases xs with
    | nil => exact shows_of_visible (by decide) _
    | cons x xs =>
      rw [itemChars, List.cons_append, shows_cons (by decide)] at hitems
      rw [chars, List.cons_append, shows_cons (by decide)]
      exact hitems
  | object fields => by
    have hfields := shows_fieldChars fields
    rcases fields with _ | ⟨⟨name, x⟩, fields⟩
    · exact shows_of_visible (by decide) _
    · rw [fieldChars, List.cons_append, List.cons_append, shows_cons (by decide)] at hfields
      rw [chars, List.cons_append, List.cons_append, shows_cons (by decide)]
      exact hfields

theorem shows_itemChars : ∀ xs : List Json, Shows (itemStrings xs) (itemChars xs)
  | [] => shows_of_visible (by decide) _
  | x :: xs => by
    rw [itemChars, itemStrings, List.cons_append, shows_cons (by decide), shows_append]
    exact ⟨(shows_chars x).mono (List.subset_append_left _ _),
      (shows_itemChars xs).mono (List.subset_append_right _ _)⟩

theorem shows_fieldChars : ∀ fields : List (String × Json),
    Shows (fieldStrings fields) (fieldChars fields)
  | [] => shows_of_visible (by decide) _
  | (name, x) :: fields => by
    rw [fieldChars, fieldStrings]
    simp only [List.cons_append, List.append_assoc]
    rw [shows_cons (by decide), shows_append, shows_cons (by decide), shows_append]
    refine ⟨shows_quote (.head _), (shows_chars x).mono ?_, (shows_fieldChars fields).mono ?_⟩
    · exact fun s hs => .tail _ (List.mem_append_left _ hs)
    · exact fun s hs => .tail _ (List.mem_append_right _ hs)

end

/-- The text of a value has no control characters, whatever strings the value holds. -/
theorem printable_chars (x : Json) : Printable x.chars := by
  intro c hc
  obtain hvisible | ⟨s, -, d, -, hescape⟩ := x.shows_chars c hc
  · exact Nat.le_of_lt hvisible.1
  · exact printable_escape d c hescape

theorem newline_not_mem_chars (x : Json) : '\n' ∉ x.chars := fun h =>
  absurd (x.printable_chars _ h) (by decide)

/-- A value whose strings, the names of fields included, are made of visible characters. -/
def Plain (x : Json) : Prop := ∀ s ∈ x.strings, Visible s.toList

/-- The text of a plain value is made of visible characters. -/
theorem visible_chars {x : Json} (h : x.Plain) : Visible x.chars := by
  intro c hc
  obtain hvisible | ⟨s, hs, d, hd, hescape⟩ := x.shows_chars c hc
  · exact hvisible
  · exact visible_escape (h s hs d hd).1 (h s hs d hd).2 c hescape

@[simp] theorem plain_null : null.Plain := nofun

@[simp] theorem plain_bool (b : Bool) : (bool b).Plain := nofun

@[simp] theorem plain_number (n : Nat) : (number n).Plain := nofun

@[simp] theorem plain_text {s : String} : (text s).Plain ↔ Visible s.toList :=
  List.forall_mem_singleton

theorem plain_list {xs : List Json} : (list xs).Plain ↔ ∀ x ∈ xs, x.Plain := by
  simp only [Plain, strings]
  induction xs with
  | nil => simp [itemStrings]
  | cons x xs ih => rw [itemStrings, List.forall_mem_append, List.forall_mem_cons, ih]

@[simp] theorem plain_object {fields : List (String × Json)} :
    (object fields).Plain ↔ ∀ f ∈ fields, Visible f.1.toList ∧ f.2.Plain := by
  simp only [Plain, strings]
  induction fields with
  | nil => simp [fieldStrings]
  | cons f fields ih =>
    rw [fieldStrings, List.cons_append, List.forall_mem_cons, List.forall_mem_append,
      List.forall_mem_cons, ih, and_assoc]

end Json

end NanoLedger
