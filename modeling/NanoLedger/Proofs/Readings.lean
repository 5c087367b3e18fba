import NanoLedger.Proofs.BitGroups
import NanoLedger.Reading

/-!
# Reads from a buffer

A cursor offers reads of several kinds (`Reading`). What one of them does is told by two tables: how
many bytes it takes (`Reading.takes`) and what it makes of them (`Reading.make`). If fewer are left,
it is truncated and goes to the end; nothing else moves a cursor. Two kinds of reads may panic
(`Reading.Panics`): bytes so many that no room for them can be made, before any of them is read, and
bit groups whose widths add up to more than a word holds, behind the byte that they are groups of.

So the cursor behind any sequence of reads stands at a place within the buffer
(`Reading.exists_of_after`), and what the next read comes to follows from that place alone
(`Reading.comes_within`). From the end, where a truncated read leaves the cursor, no read gets away.
The parts that reads have taken up to the first failure lie one behind the other at the beginning of
the buffer (`Reading.exists_parts`). `Reading.sequence_exact` puts this together.
-/

namespace NanoLedger

/-! ## Places in a buffer -/

namespace Cursor

/-- The place behind the first `p` bytes of a buffer. -/
def within (buffer : Bytes) (p : Nat) : Cursor := ⟨p, buffer.drop p⟩

theorem advance_within (buffer : Bytes) (p n : Nat) :
    (within buffer p).advance n = within buffer (p + n) := by
  rw [advance, within, within, List.drop_drop]

theorem toEnd_within {buffer : Bytes} {p : Nat} (hp : p ≤ buffer.length) :
    (within buffer p).toEnd = within buffer buffer.length := by
  rw [toEnd, within, within, List.length_drop, Nat.add_sub_cancel' hp, List.drop_length]

theorem isExhausted_within {buffer : Bytes} {p : Nat} (hp : p ≤ buffer.length) :
    (within buffer p).isExhausted = true ↔ p = buffer.length := by
  rw [isExhausted, within, List.isEmpty_iff, List.drop_eq_nil_iff]
  omega

/-- The next `n` bytes, if there are as many, are `n` bytes. -/
theorem length_take_rest (c : Cursor) (n : Nat) (h : n ≤ c.rest.length) :
    (c.rest.take n).length = n := List.length_take_of_le h

end Cursor

/-! ## Single reads -/

namespace Read

variable {α β : Type}

/-- Whether a read takes `n` bytes and makes something of them, or is truncated and goes to the end
if fewer are left. -/
def Takes (r : Read α) (n : Nat) (f : Octets n → Except LedgerError α) : Prop :=
  ∀ c, r.run c =
    if h : n ≤ c.rest.length then (f ⟨c.rest.take n, c.length_take_rest n h⟩, c.advance n)
    else (.error .truncated, c.toEnd)

theorem takes_octets (n : Nat) : (octets n).Takes n .ok := fun _ => rfl

/-- A result that is shown in another form. -/
theorem Takes.map {r : Read α} {n : Nat} {f : Octets n → Except LedgerError α} (h : r.Takes n f)
    (g : α → β) : (do return g (← r) : Read β).Takes n fun o => (f o).map g := by
  intro c
  rw [run_bind, h c]
  by_cases hle : n ≤ c.rest.length
  · rw [dif_pos hle, dif_pos hle]
    beta_reduce
    cases f _ <;> rfl
  · rw [dif_neg hle, dif_neg hle]

theorem length_rest_of_run_byte {c next : Cursor} {b : UInt8} (h : byte.run c = (.ok b, next)) :
    next.rest.length < c.rest.length := by
  rcases c with ⟨pos, _ | ⟨b', rest⟩⟩
  · cases h
  · cases h
    exact Nat.lt_succ_self _

/-- Read byte after byte behind those that were read before, until nothing is left. -/
def byteByByte (before : Bytes) (c : Cursor) : Except LedgerError Bytes × Cursor :=
  if c.isExhausted then (.ok before, c)
  else
    match _ : byte.run c with
    | (.ok b, next) => byteByByte (before ++ [b]) next
    | (.error e, next) => (.error e, next)
termination_by c.rest.length
decreasing_by exact length_rest_of_run_byte ‹_›

/-- Reading byte after byte comes to an end and gives all that is left. -/
theorem byteByByte_eq (before : Bytes) (c : Cursor) :
    byteByByte before c = (.ok (before ++ c.rest), c.toEnd) := by
  obtain ⟨pos, rest⟩ := c
  induction rest generalizing pos before with
  | nil =>
    rw [byteByByte, List.append_nil]
    exact if_pos rfl
  | cons b rest ih =>
    rw [byteByByte, if_neg (by simp [Cursor.isExhausted])]
    show byteByByte (before ++ [b]) ⟨pos + 1, rest⟩ = _
    rw [ih, List.append_assoc, Cursor.toEnd, Cursor.toEnd, List.length_cons, Nat.add_right_comm]
    rfl

end Read

namespace CheckedRead

variable {α β : Type}

/-- Whether a read takes `n` bytes and makes something of them or panics over them, or is truncated
and goes to the end if fewer are left. -/
def Takes (r : CheckedRead α) (n : Nat) (f : Octets n → Call (Except LedgerError α)) : Prop :=
  ∀ c, r.run c =
    if h : n ≤ c.rest.length then do
      return (← f ⟨c.rest.take n, c.length_take_rest n h⟩, c.advance n)
    else .gives (.error .truncated, c.toEnd)

theorem takes_ofRead {r : Read α} {n : Nat} {f : Octets n → Except LedgerError α}
    (h : r.Takes n f) : (ofRead r).Takes n fun o => .gives (f o) := by
  intro c
  rw [run, ofRead, h c]
  split <;> rfl

/-- A result that is shown in another form. -/
theorem Takes.map {r : CheckedRead α} {n : Nat} {f : Octets n → Call (Except LedgerError α)}
    (h : r.Takes n f) (g : α → β) :
    (r.map g).Takes n fun o => do return (← f o).map g := by
  intro c
  rw [run, CheckedRead.map, h c]
  by_cases hle : n ≤ c.rest.length
  · rw [dif_pos hle, dif_pos hle]
    beta_reduce
    cases f ⟨c.rest.take n, c.length_take_rest n hle⟩ <;> rfl
  · rw [dif_neg hle, dif_neg hle]
    rfl

/-- The byte is read before it turns out that there are no groups of it. -/
theorem takes_bitField (widths : List UInt32) :
    (bitField widths).Takes 1 fun o => Read.split (o.bytes.headD 0) widths := by
  intro c
  rcases c with ⟨pos, _ | ⟨b, rest⟩⟩ <;> rfl

end CheckedRead

namespace Reading

/-- Whether there are integers of the width that a read asks for. -/
def Supported : Reading → Prop
  | uint width _ => width = 1 ∨ width = 2 ∨ width = 8
  | _ => True

/-- Whether a read panics where `left` bytes are left. -/
def Panics (left : Nat) : Reading → Prop
  | bytes count => CheckedRead.tooLong ≤ count
  | bitField widths => 0 < left ∧ 2 ^ 32 ≤ totalWidth widths
  | _ => False

/-- How many bytes a read takes where `left` are left. -/
def takes (left : Nat) : Reading → Nat
  | byte | bitField _ => 1
  | number width _ => width
  | balance _ => 16
  | uint width _ => if width = 1 ∨ width = 2 ∨ width = 8 then width else 0
  | octets count | bytes count => count
  | remaining => left

/-- The error for an integer of a width that there is not. -/
def unsupportedWidth (width : Nat) : LedgerError :=
  .misuse ("unsupported integer width: " ++ toString width)

/-- What a read makes of the bytes that it takes. -/
def make : Reading → Bytes → Call (Except LedgerError Given)
  | byte, bs => return .ok (.number (bs.headD 0).toNat)
  | number _ order, bs | balance order, bs => return .ok (.number (order.decode bs))
  | uint width order, bs =>
    if width = 1 ∨ width = 2 ∨ width = 8 then return .ok (.number (order.decode bs))
    else return .error (unsupportedWidth width)
  | octets _, bs | bytes _, bs | remaining, bs => return .ok (.bytes bs)
  | bitField widths, bs => return (← Read.split (bs.headD 0) widths).map .groups

/-- Every read but that of all the rest takes a number of bytes that its kind tells, if room for
them can be made. -/
theorem takes_read {r : Reading} (h : r ≠ remaining)
    (hroom : ∀ count, r = bytes count → count < CheckedRead.tooLong) (left : Nat) :
    r.read.Takes (r.takes left) fun o => r.make o.bytes := by
  cases r with
  | byte => exact (CheckedRead.takes_ofRead ((Read.takes_octets 1).map _)).map _
  | number width order => exact (CheckedRead.takes_ofRead ((Read.takes_octets width).map _)).map _
  | balance order =>
    exact (CheckedRead.takes_ofRead ((Read.takes_octets 16).map (Balance.layout order).decode)).map _
  | octets count => exact (CheckedRead.takes_ofRead (Read.takes_octets count)).map _
  | bytes count =>
    have hrun : CheckedRead.bytes count =
        CheckedRead.ofRead (do return (← Read.octets count).bytes) :=
      funext fun _ => if_pos (hroom count rfl)
    rw [read, hrun]
    exact (CheckedRead.takes_ofRead ((Read.takes_octets count).map _)).map _
  | remaining => exact absurd rfl h
  | bitField widths => exact (CheckedRead.takes_bitField widths).map _
  | uint width order =>
    by_cases hwidth : width = 1 ∨ width = 2 ∨ width = 8
    · have htakes : takes left (uint width order) = width := if_pos hwidth
      have hmake : (uint width order).make = fun bs => .gives (.ok (.number (order.decode bs))) :=
        funext fun _ => if_pos hwidth
      rw [htakes, hmake, read, Read.uint, if_pos hwidth]
      exact (CheckedRead.takes_ofRead ((Read.takes_octets width).map _)).map _
    · have htakes : takes left (uint width order) = 0 := if_neg hwidth
      have hmake : (uint width order).make = fun _ => .gives (.error (unsupportedWidth width)) :=
        funext fun _ => if_neg hwidth
      rw [htakes, hmake, read, Read.uint, if_neg hwidth]
      exact fun _ => rfl

/-- Bytes so many that no room for them can be made panic. -/
theorem run_bytes_of_le {count : Nat} (h : CheckedRead.tooLong ≤ count) (c : Cursor) :
    (bytes count).read.run c = .panics := by
  rw [read, CheckedRead.run, CheckedRead.map, CheckedRead.run, CheckedRead.bytes,
    if_neg (Nat.not_lt.2 h)]
  rfl

/-- A read for which room can be made takes its bytes and makes something of them, or it is
truncated and goes to the end. -/
theorem run_read {r : Reading} (hroom : ∀ count, r = bytes count → count < CheckedRead.tooLong)
    (c : Cursor) : r.read.run c =
    if r.takes c.rest.length ≤ c.rest.length then do
      return (← r.make (c.rest.take (r.takes c.rest.length)), c.advance (r.takes c.rest.length))
    else .gives (.error .truncated, c.toEnd) := by
  by_cases h : r = remaining
  · subst h
    rw [takes, if_pos (Nat.le_refl _), List.take_length, Cursor.advance, List.drop_length]
    rfl
  · rw [takes_read h hroom c.rest.length c]
    split <;> rfl

/-! ## What is made of bytes -/

variable {r : Reading} {bs : Bytes} {widths : List UInt32} {answer : Except LedgerError Given}

theorem make_bitField_of_split {answer : Except LedgerError (List UInt8)}
    (h : Read.split (bs.headD 0) widths = .gives answer) :
    (bitField widths).make bs = .gives (answer.map .groups) := by
  rw [make, h]
  rfl

/-- Where bit groups do not panic, they are refused unless the widths divide a byte. -/
theorem make_bitField_eq_gives (h : (bitField widths).make bs = .gives answer) :
    ((∃ g, answer = .ok g) ↔ DividesByte widths) ∧ ∀ e, answer = .error e → e.cause = .runtime := by
  by_cases hdivides : DividesByte widths
  · obtain ⟨groups, hsplit, -⟩ := Read.exists_split_of_dividesByte hdivides (bs.headD 0)
    cases (make_bitField_of_split hsplit).symm.trans h
    exact ⟨iff_of_true ⟨_, rfl⟩ hdivides, nofun⟩
  · rcases Nat.lt_or_ge (totalWidth widths) (2 ^ 32) with hlt | hge
    · have hsplit := Read.split_of_not_dividesByte hlt hdivides (bs.headD 0)
      cases (make_bitField_of_split hsplit).symm.trans h
      refine ⟨iff_of_false (fun ⟨_, hg⟩ => nomatch hg) hdivides, ?_⟩
      rintro _ ⟨⟩
      rfl
    · rw [make, Read.split_of_le hge] at h
      cases h

/-- Only bit fields and integers of other widths fail where bytes are left. -/
theorem exists_make_eq_ok (hsupported : r.Supported) (hfield : ∀ widths, r ≠ bitField widths)
    (bs : Bytes) : ∃ g, r.make bs = .gives (.ok g) := by
  cases r with
  | byte | number | balance | octets | bytes | remaining => exact ⟨_, rfl⟩
  | uint width order => exact ⟨_, if_pos hsupported⟩
  | bitField widths => exact absurd rfl (hfield widths)

/-- What fails although its bytes are there is a misuse. -/
theorem cause_of_make_eq_error {e : LedgerError} (h : r.make bs = .gives (.error e)) :
    e.cause = .runtime := by
  cases r with
  | byte | number | balance | octets | bytes | remaining => cases h
  | uint width order =>
    rw [make] at h
    split at h
    · cases h
    · cases h
      rfl
  | bitField widths => exact (make_bitField_eq_gives h).2 e rfl

/-- Only bit fields panic over bytes that they have taken. -/
theorem make_eq_panics_iff :
    r.make bs = .panics ↔ ∃ widths, r = bitField widths ∧ 2 ^ 32 ≤ totalWidth widths := by
  cases r with
  | byte | number | balance | octets | bytes | remaining => exact iff_of_false nofun nofun
  | uint width order =>
    refine iff_of_false ?_ nofun
    rw [make]
    split <;> exact nofun
  | bitField widths =>
    constructor
    · intro h
      rw [make, Call.bind_eq_panics] at h
      obtain hsplit | ⟨_, -, h⟩ := h
      · exact ⟨widths, rfl, Read.split_eq_panics_iff.1 hsplit⟩
      · cases h
    · rintro ⟨_, ⟨⟩, hge⟩
      rw [make, Read.split_of_le hge]
      rfl

theorem takes_of_not_supported {width : Nat} {order : ByteOrder} (left : Nat)
    (h : ¬ (uint width order).Supported) : (uint width order).takes left = 0 := if_neg h

/-! ## Sequences of reads -/

variable {buffer : Bytes} {p : Nat}

/-- A read at a place of a buffer leads to a place of the buffer. -/
theorem run_read_within
    (hroom : ∀ count, r = bytes count → count < CheckedRead.tooLong) (hp : p ≤ buffer.length) :
    r.read.run (.within buffer p) =
      if r.takes (buffer.length - p) ≤ buffer.length - p then do
        return (← r.make ((buffer.drop p).take (r.takes (buffer.length - p))),
          .within buffer (p + r.takes (buffer.length - p)))
      else .gives (.error .truncated, .within buffer buffer.length) := by
  have hlength : (Cursor.within buffer p).rest.length = buffer.length - p := List.length_drop
  rw [run_read hroom, hlength, Cursor.advance_within, Cursor.toEnd_within hp]
  rfl


/-- A read at a place of a buffer panics, or it takes its bytes and leads behind them, or it is
truncated and leads to the end. -/
theorem run_read_within_cases (r : Reading) (hp : p ≤ buffer.length) :
    let n := r.takes (buffer.length - p)
    r.Panics (buffer.length - p) ∧ r.read.run (.within buffer p) = .panics ∨
    ¬ r.Panics (buffer.length - p) ∧ n ≤ buffer.length - p ∧
      (∃ answer, r.make ((buffer.drop p).take n) = .gives answer ∧
        r.read.run (.within buffer p) = .gives (answer, .within buffer (p + n))) ∨
    ¬ r.Panics (buffer.length - p) ∧ buffer.length - p < n ∧
      r.read.run (.within buffer p) = .gives (.error .truncated, .within buffer buffer.length) := by
  intro n
  by_cases hroom : ∀ count, r = bytes count → count < CheckedRead.tooLong
  · have hbytes : r.Panics (buffer.length - p) →
        ∃ widths, r = bitField widths ∧ 0 < buffer.length - p ∧ 2 ^ 32 ≤ totalWidth widths := by
      intro hpanics
      cases r with
      | byte | number | balance | uint | octets | remaining => cases hpanics
      | bytes count => exact absurd (hroom count rfl) (Nat.not_lt.2 hpanics)
      | bitField widths => exact ⟨widths, rfl, hpanics⟩
    rw [run_read_within hroom hp]
    by_cases hle : n ≤ buffer.length - p
    · rw [if_pos hle]
      cases hmake : r.make ((buffer.drop p).take n) with
      | panics =>
        obtain ⟨widths, rfl, hge⟩ := make_eq_panics_iff.1 hmake
        exact .inl ⟨⟨hle, hge⟩, rfl⟩
      | gives answer =>
        refine .inr (.inl ⟨fun hpanics => ?_, hle, answer, rfl, rfl⟩)
        obtain ⟨widths, hr, -, hge⟩ := hbytes hpanics
        rw [make_eq_panics_iff.2 ⟨widths, hr, hge⟩] at hmake
        cases hmake
    · refine .inr (.inr ⟨fun hpanics => ?_, Nat.not_le.1 hle, if_neg hle⟩)
      obtain ⟨widths, rfl, hpos, -⟩ := hbytes hpanics
      exact hle hpos
  · simp only [not_forall, Nat.not_lt] at hroom
    obtain ⟨count, rfl, hge⟩ := hroom
    exact .inl ⟨hge, run_bytes_of_le hge _⟩

/-- The reads in front of the first one that fails or panics, with what they give. -/
def given : List Reading → Cursor → List (Reading × Given)
  | [], _ => []
  | r :: rs, c =>
    match r.read.run c with
    | .gives (.ok g, next) => (r, g) :: given rs next
    | .gives (.error _, _) | .panics => []

/-- Whether a part of a buffer is what a read has taken to give something. -/
def Shows (x : Reading × Given) (part : Bytes) : Prop :=
  x.1.takes part.length = part.length ∧ x.1.make part = .gives (.ok x.2)

/-- What a read at place `p` of a buffer comes to, by the kind of the read, unless it panics. -/
structure Comes (buffer : Bytes) (p : Nat) (r : Reading) (answer : Except LedgerError Given)
    (next : Cursor) : Prop where
  le_pos : p ≤ next.pos
  pos_le : next.pos ≤ buffer.length
  isExhausted_iff : next.isExhausted = true ↔ next.pos = buffer.length
  /-- enough bytes are left -/
  taken : ∀ n, r.takes (buffer.length - p) = n → n ≤ buffer.length - p →
    r.make ((buffer.drop p).take n) = .gives answer ∧ next.pos = p + n
  /-- fewer bytes are left -/
  truncated : ∀ n, r.takes (buffer.length - p) = n → buffer.length - p < n →
    answer = .error .truncated ∧ next.pos = buffer.length
  isOk_iff : r.Supported → (∀ widths, r ≠ bitField widths) →
    ((∃ g, answer = .ok g) ↔ r.takes (buffer.length - p) ≤ buffer.length - p)
  rest : r = remaining → answer = .ok (.bytes (buffer.drop p)) ∧ next.pos = buffer.length
  unsupported : ∀ width order, r = uint width order → ¬ r.Supported →
    answer = .error (unsupportedWidth width) ∧ next.pos = p
  /-- the widths of a bit field -/
  cut : ∀ widths, r = bitField widths → p < buffer.length →
    next.pos = p + 1 ∧ ((∃ g, answer = .ok g) ↔ DividesByte widths) ∧
    ∀ e, answer = .error e → e.cause = .runtime

theorem comes_of_le (hp : p ≤ buffer.length)
    (hle : r.takes (buffer.length - p) ≤ buffer.length - p)
    (hmake : r.make ((buffer.drop p).take (r.takes (buffer.length - p))) = .gives answer) :
    Comes buffer p r answer (.within buffer (p + r.takes (buffer.length - p))) where
  le_pos := Nat.le_add_right _ _
  pos_le := Nat.add_le_of_le_sub' hp hle
  isExhausted_iff := Cursor.isExhausted_within (Nat.add_le_of_le_sub' hp hle)
  taken := by
    rintro n rfl -
    exact ⟨hmake, rfl⟩
  truncated := by
    rintro n rfl hlt
    exact absurd hle (Nat.not_le.2 hlt)
  isOk_iff hsupported hfield := by
    obtain ⟨g, hg⟩ := exists_make_eq_ok hsupported hfield _
    cases hg.symm.trans hmake
    exact iff_of_true ⟨g, rfl⟩ hle
  rest := by
    rintro rfl
    cases hmake
    rw [takes, ← List.length_drop, List.take_length, List.length_drop]
    exact ⟨rfl, Nat.add_sub_cancel' hp⟩
  unsupported := by
    rintro width order rfl hwidth
    cases (if_neg hwidth).symm.trans hmake
    rw [takes_of_not_supported _ hwidth]
    exact ⟨rfl, rfl⟩
  cut := by
    rintro widths rfl -
    exact ⟨rfl, make_bitField_eq_gives hmake⟩

theorem comes_of_lt (hp : p ≤ buffer.length)
    (hlt : buffer.length - p < r.takes (buffer.length - p)) :
    Comes buffer p r (.error .truncated) (.within buffer buffer.length) where
  le_pos := hp
  pos_le := Nat.le_refl _
  isExhausted_iff := Cursor.isExhausted_within (Nat.le_refl _)
  taken := by
    rintro n rfl hle
    exact absurd hle (Nat.not_le.2 hlt)
  truncated := by
    rintro n rfl -
    exact ⟨rfl, rfl⟩
  isOk_iff _ _ := iff_of_false (fun ⟨_, h⟩ => nomatch h) (Nat.not_le.2 hlt)
  rest := by
    rintro rfl
    exact absurd hlt (Nat.lt_irrefl _)
  unsupported := by
    rintro width order rfl hwidth
    rw [takes_of_not_supported _ hwidth] at hlt
    exact absurd hlt (Nat.not_lt_zero _)
  cut := by
    rintro widths rfl hlast
    have hone : buffer.length - p < 1 := hlt
    omega

/-- What a read comes to is known from the place at which it begins, if it does not panic. -/
theorem comes_within {next : Cursor} (hp : p ≤ buffer.length)
    (hrun : r.read.run (.within buffer p) = .gives (answer, next)) :
    Comes buffer p r answer next := by
  obtain ⟨-, h⟩ | ⟨-, hle, answer', hmake, h⟩ | ⟨-, hlt, h⟩ := run_read_within_cases r hp
  · cases h.symm.trans hrun
  · cases h.symm.trans hrun
    exact comes_of_le hp hle hmake
  · cases h.symm.trans hrun
    exact comes_of_lt hp hlt

theorem run_read_eq_panics_iff (hp : p ≤ buffer.length) :
    r.read.run (.within buffer p) = .panics ↔ r.Panics (buffer.length - p) := by
  obtain ⟨hpanics, h⟩ | ⟨hpanics, -, _, -, h⟩ | ⟨hpanics, -, h⟩ := run_read_within_cases r hp
  · exact iff_of_true h hpanics
  · exact iff_of_false (by rw [h]; exact nofun) hpanics
  · exact iff_of_false (by rw [h]; exact nofun) hpanics

/-- A read leads from a place of a buffer to a place of the buffer. -/
theorem exists_of_run_read {next : Cursor} (hp : p ≤ buffer.length)
    (hrun : r.read.run (.within buffer p) = .gives (answer, next)) :
    ∃ q, q ≤ buffer.length ∧ next = .within buffer q := by
  obtain ⟨-, h⟩ | ⟨-, hle, _, -, h⟩ | ⟨-, -, h⟩ := run_read_within_cases r hp
  · cases h.symm.trans hrun
  · cases h.symm.trans hrun
    exact ⟨_, Nat.add_le_of_le_sub' hp hle, rfl⟩
  · cases h.symm.trans hrun
    exact ⟨_, Nat.le_refl _, rfl⟩

theorem after_cons_eq_gives {rs : List Reading} {c c' : Cursor} :
    after (r :: rs) c = .gives c' ↔
      ∃ answer next, r.read.run c = .gives (answer, next) ∧ after rs next = .gives c' := by
  rw [after, Call.bind_eq_gives, Prod.exists]

/-- Any sequence of reads leads from a place of a buffer to a place of the buffer. -/
theorem exists_of_after {rs : List Reading} {c : Cursor} (hp : p ≤ buffer.length)
    (h : after rs (.within buffer p) = .gives c) :
    ∃ q, q ≤ buffer.length ∧ c = .within buffer q := by
  induction rs generalizing p with
  | nil =>
    cases h
    exact ⟨p, hp, rfl⟩
  | cons r rs ih =>
    obtain ⟨answer, next, hrun, h⟩ := after_cons_eq_gives.1 h
    obtain ⟨q, hq, rfl⟩ := exists_of_run_read hp hrun
    exact ih hq h

/-- A sequence of reads panics exactly if one of them does, where the ones before it have led. -/
theorem after_eq_panics_iff {rs : List Reading} (hp : p ≤ buffer.length) :
    after rs (.within buffer p) = .panics ↔
      ∃ before r more c, rs = before ++ r :: more ∧ after before (.within buffer p) = .gives c ∧
        r.Panics (buffer.length - c.pos) := by
  induction rs generalizing p with
  | nil =>
    refine iff_of_false nofun ?_
    rintro ⟨before, r, more, c, h, -⟩
    cases before <;> cases h
  | cons r rs ih =>
    rw [after, Call.bind_eq_panics, run_read_eq_panics_iff hp]
    constructor
    · rintro (hpanics | ⟨⟨answer, next⟩, hrun, hrest⟩)
      · exact ⟨[], r, rs, _, rfl, rfl, hpanics⟩
      · obtain ⟨q, hq, rfl⟩ := exists_of_run_read hp hrun
        obtain ⟨before, r', more, c, rfl, hbefore, hpanics⟩ := (ih hq).1 hrest
        exact ⟨r :: before, r', more, c, rfl, after_cons_eq_gives.2 ⟨_, _, hrun, hbefore⟩, hpanics⟩
    · rintro ⟨_ | ⟨r₀, before⟩, r', more, c, heq, hbefore, hpanics⟩
      · cases heq
        cases hbefore
        exact .inl hpanics
      · cases heq
        obtain ⟨answer, next, hrun, hbefore⟩ := after_cons_eq_gives.1 hbefore
        obtain ⟨q, hq, rfl⟩ := exists_of_run_read hp hrun
        exact .inr ⟨_, hrun, (ih hq).2 ⟨before, r', more, c, rfl, hbefore, hpanics⟩⟩

/-! ## Behind a truncated read -/

/-- From the end of a buffer no read gets away. -/
theorem after_end {rs : List Reading} {c : Cursor}
    (h : after rs (.within buffer buffer.length) = .gives c) :
    c = .within buffer buffer.length := by
  induction rs with
  | nil =>
    cases h
    rfl
  | cons r rs ih =>
    obtain ⟨answer, next, hrun, h⟩ := after_cons_eq_gives.1 h
    have hcomes := comes_within (Nat.le_refl _) hrun
    obtain ⟨q, hq, rfl⟩ := exists_of_run_read (Nat.le_refl _) hrun
    rw [Nat.le_antisymm hq hcomes.le_pos] at h
    exact ih h

/-- A truncated read has gone to the end. -/
theorem next_of_truncated {next : Cursor} (hp : p ≤ buffer.length)
    (hrun : r.read.run (.within buffer p) = .gives (.error .truncated, next)) :
    next = .within buffer buffer.length := by
  obtain ⟨-, h⟩ | ⟨-, -, answer, hmake, h⟩ | ⟨-, -, h⟩ := run_read_within_cases r hp
  · cases h.symm.trans hrun
  · cases h.symm.trans hrun
    exact absurd (cause_of_make_eq_error hmake) (by decide)
  · cases h.symm.trans hrun
    rfl

/-- At the end of a buffer a read of at least one byte is truncated, unless it panics. -/
theorem run_read_end_of_pos (hpanics : ¬ r.Panics 0) (h : 0 < r.takes 0) :
    r.read.run (.within buffer buffer.length) =
      .gives (.error .truncated, .within buffer buffer.length) := by
  have hcases := run_read_within_cases r (Nat.le_refl buffer.length)
  rw [Nat.sub_self] at hcases
  obtain ⟨hpanics', -⟩ | ⟨-, hle, -⟩ | ⟨-, -, hrun⟩ := hcases
  · exact absurd hpanics' hpanics
  · exact absurd h (Nat.not_lt.2 hle)
  · exact hrun

/-- At the end of a buffer a read of no bytes succeeds. -/
theorem exists_run_read_end_of_zero (hsupported : r.Supported) (h : r.takes 0 = 0) :
    ∃ g, r.read.run (.within buffer buffer.length) = .gives (.ok g, .within buffer buffer.length) := by
  have hfield : ∀ widths, r ≠ bitField widths := by
    rintro widths rfl
    cases h
  have hcases := run_read_within_cases r (Nat.le_refl buffer.length)
  rw [Nat.sub_self, h] at hcases
  obtain ⟨hpanics, -⟩ | ⟨-, -, answer, hmake, hrun⟩ | ⟨-, hlt, -⟩ := hcases
  · cases r with
    | byte | number | balance | uint | octets | remaining => cases hpanics
    | bytes count =>
      obtain rfl : count = 0 := h
      exact absurd hpanics (Nat.not_le.2 (Nat.two_pow_pos 63))
    | bitField widths => exact absurd rfl (hfield widths)
  · obtain ⟨g, hg⟩ := exists_make_eq_ok hsupported hfield ((buffer.drop buffer.length).take 0)
    cases hg.symm.trans hmake
    exact ⟨g, hrun⟩
  · exact absurd hlt (Nat.lt_irrefl 0)

/-! ## What reads have taken -/

theorem takes_takes (r : Reading) (left : Nat) : r.takes (r.takes left) = r.takes left := by
  cases r <;> rfl

/-- The parts that reads have taken up to the first failure lie one behind the other. -/
theorem exists_parts (rs : List Reading) (hp : p ≤ buffer.length) :
    ∃ parts, List.Forall₂ Shows (given rs (.within buffer p)) parts ∧
      parts.flatten <+: buffer.drop p := by
  induction rs generalizing p with
  | nil => exact ⟨[], .nil, List.nil_prefix⟩
  | cons r rs ih =>
    rw [given]
    obtain ⟨-, hrun⟩ | ⟨-, hle, answer, hmake, hrun⟩ | ⟨-, -, hrun⟩ := run_read_within_cases r hp
    · rw [hrun]
      exact ⟨[], .nil, List.nil_prefix⟩
    · rw [hrun]
      cases answer with
      | error e => exact ⟨[], .nil, List.nil_prefix⟩
      | ok g =>
        obtain ⟨n, hn⟩ : ∃ n, r.takes (buffer.length - p) = n := ⟨_, rfl⟩
        rw [hn] at hle hmake ⊢
        have hlength : ((buffer.drop p).take n).length = n := by
          rw [List.length_take, List.length_drop, Nat.min_eq_left hle]
        obtain ⟨parts, hshows, hparts⟩ := ih (Nat.add_le_of_le_sub' hp hle)
        refine ⟨_ :: parts, .cons ⟨?_, hmake⟩ hshows, ?_⟩
        · rw [hlength, ← hn, takes_takes]
        · rw [← List.drop_drop] at hparts
          have happend := (List.prefix_append_right_inj ((buffer.drop p).take n)).2 hparts
          rwa [List.take_append_drop] at happend
    · rw [hrun]
      exact ⟨[], .nil, List.nil_prefix⟩

/-- Any sequence of reads keeps a cursor within its buffer, unless one of them panics. Each read
comes to what its kind tells: it takes the bytes in front of the cursor and gives what they show, or
it is truncated. Reading byte after byte comes to an end, with all that is left. After a truncated
read the cursor stays at the end, where every read of at least one byte is truncated and every other
one succeeds. Up to the first failure, the parts that reads have taken make up a prefix of the
buffer.

A read panics exactly if it asks for bytes so many that no room for them can be made, wherever the
cursor stands, or for bit groups whose widths add up to `2 ^ 32` or more where a byte is left. -/
theorem sequence_exact (buffer : Bytes) (rs : List Reading) :
    (after rs (.start buffer) = .panics ↔
      ∃ before r more c, rs = before ++ r :: more ∧ after before (.start buffer) = .gives c ∧
        r.Panics (buffer.length - c.pos)) ∧
    (∀ c, after rs (.start buffer) = .gives c →
      (c.pos ≤ buffer.length ∧ (c.isExhausted = true ↔ c.pos = buffer.length)) ∧
      (∀ r : Reading, (r.read.run c = .panics ↔ r.Panics (buffer.length - c.pos)) ∧
        ∀ answer next, r.read.run c = .gives (answer, next) →
          Comes buffer c.pos r answer next) ∧
      Read.byteByByte [] c = Read.remaining.run c ∧
      ∀ (r : Reading) (next : Cursor), r.read.run c = .gives (.error .truncated, next) →
        ∀ more c', after more next = .gives c' → c'.pos = buffer.length ∧
          ∀ r' : Reading,
            (0 < r'.takes 0 → ¬ r'.Panics 0 →
              r'.read.run c' = .gives (.error .truncated, c')) ∧
            (r'.takes 0 = 0 → r'.Supported → ∃ g, r'.read.run c' = .gives (.ok g, c'))) ∧
    ∃ parts, List.Forall₂ Shows (given rs (.start buffer)) parts ∧ parts.flatten <+: buffer := by
  refine ⟨after_eq_panics_iff (Nat.zero_le _), fun c hafter => ?_,
    exists_parts rs (Nat.zero_le _)⟩
  obtain ⟨p, hp, rfl⟩ := exists_of_after (Nat.zero_le buffer.length) hafter
  refine ⟨⟨hp, Cursor.isExhausted_within hp⟩, fun r => ?_, ?_, ?_⟩
  · exact ⟨run_read_eq_panics_iff hp, fun answer next hrun => comes_within hp hrun⟩
  · rw [Read.byteByByte_eq]
    rfl
  · intro r next htruncated more c' hmore
    cases next_of_truncated hp htruncated
    cases after_end hmore
    exact ⟨rfl, fun r' => ⟨fun hpos hpanics => run_read_end_of_pos hpanics hpos,
      fun hzero hsupported => exists_run_read_end_of_zero hsupported hzero⟩⟩

/-- A number of two bytes is read from three, and then another one is truncated. -/
theorem sequence_exact_threeBytes :
    ∃ c c', after [number 2 .littleEndian] (.start [1, 2, 3]) = .gives c ∧
      (number 2 .bigEndian).read.run c = .gives (.error .truncated, c') ∧
      0 < byte.takes 0 ∧ ¬ byte.Panics 0 ∧ byte.read.run c' = .gives (.error .truncated, c') ∧
      ∃ parts, List.Forall₂ Shows [(number 2 .littleEndian, .number 513)] parts ∧
        parts.flatten <+: [1, 2, 3] := by
  obtain ⟨-, hall, hparts⟩ := sequence_exact [1, 2, 3] [number 2 .littleEndian]
  have hafter : after [number 2 .littleEndian] (.start [1, 2, 3]) = .gives ⟨2, [3]⟩ := rfl
  have htruncated : (number 2 .bigEndian).read.run ⟨2, [3]⟩ = .gives (.error .truncated, ⟨3, []⟩) :=
    rfl
  have hpos : 0 < byte.takes 0 := by decide
  have hpanics : ¬ byte.Panics 0 := id
  obtain ⟨-, -, -, hend⟩ := hall _ hafter
  obtain ⟨-, hbehind⟩ := hend _ _ htruncated [] _ rfl
  exact ⟨_, _, hafter, htruncated, hpos, hpanics, (hbehind byte).1 hpos hpanics, hparts⟩

/-- A bit field whose widths are together eight more than `2 ^ 32` panics, and so do more bytes than
there can be. -/
theorem read_overflow :
    (bitField [4294967295, 9]).read.run (.start [163]) = .panics ∧
      ¬ DividesByte [4294967295, 9] ∧
      (bytes (2 ^ 64 - 1)).read.run (.start [163]) = .panics :=
  ⟨rfl, by decide, rfl⟩

end Reading

end NanoLedger
