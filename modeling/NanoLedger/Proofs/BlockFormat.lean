import NanoLedger.Block

/-!
# The format of stored blocks

`Block.stored` spells the value of a block out, field by field and byte by byte: the tag of its
kind, the payload and the sideband, numbers by the power of 256 that each of their bytes counts
(`ByteOrder.spell`) and the flags of a state block by shifts (`StateFlags.packed`). It uses none of
the layouts by which blocks are read and written; that the layouts say the same is
`Block.encode_eq_stored`.

`StoredKind` pairs each of the five kinds with its layout, so that one law tells how a value is
read (`Block.decode_tag`): behind the tag stands a value of the kind's layout, and what follows it
is ignored. From it come the laws of the format: a value holds a block of a known kind exactly if it
begins with what `Block.stored` gives for that block (`Block.decode_eq_ok`), and every other value
is opaque (`Block.decode_eq_unsupported`) or too short (`Block.decode_eq_error`).
-/

namespace NanoLedger

/-! ## Numbers and flags, byte by byte -/

/-- The bytes of a number, place by place: each byte is the digit of the power of 256 that its place
counts. -/
def ByteOrder.spell (order : ByteOrder) (width n : Nat) : Bytes :=
  (List.range width).map fun i =>
    match order with
    | .bigEndian => UInt8.ofNat (n / Nat.pow 256 (width - 1 - i))
    | .littleEndian => UInt8.ofNat (n / Nat.pow 256 i)

/-- A byte of a number does not depend on the digits above the width of its field. -/
theorem Radix.digit_mod (n : Nat) {i width : Nat} (h : i < width) :
    UInt8.ofNat (n % capacity width / capacity i) = UInt8.ofNat (n / capacity i) := by
  have hcap : capacity width = capacity i * capacity (width - i) := by
    rw [← capacity_add, Nat.add_sub_cancel' (Nat.le_of_lt h)]
  have hbelow : 256 ∣ capacity (width - i) := by
    obtain ⟨k, hk⟩ : ∃ k, width - i = k + 1 := ⟨width - i - 1, by omega⟩
    rw [hk]
    exact Nat.dvd_mul_left 256 (capacity k)
  apply UInt8.toNat_inj.1
  rw [UInt8.toNat_ofNat', UInt8.toNat_ofNat', hcap, Nat.mod_mul_right_div_self]
  exact Nat.mod_mod_of_dvd _ hbelow

theorem Radix.toBytes_eq_spell (width n : Nat) :
    toBytes width n = ByteOrder.bigEndian.spell width n := by
  induction width generalizing n with
  | zero => rfl
  | succ w ih =>
    have htail : ByteOrder.bigEndian.spell w (n % capacity w) = ByteOrder.bigEndian.spell w n := by
      apply List.map_congr_left
      intro i hi
      exact digit_mod n (by rw [List.mem_range] at hi; omega)
    rw [toBytes, ih, htail, ByteOrder.spell, ByteOrder.spell, List.range_succ_eq_map, List.map_cons,
      List.map_map]
    congr 1
    apply List.map_congr_left
    intro i hi
    have hplace : w - 1 - i = w + 1 - 1 - (i + 1) := by omega
    show UInt8.ofNat (n / Nat.pow 256 (w - 1 - i)) =
      UInt8.ofNat (n / Nat.pow 256 (w + 1 - 1 - (i + 1)))
    rw [hplace]

/-- The field of a number holds its bytes, spelled out. -/
theorem ByteOrder.encode_eq_spell (order : ByteOrder) (width n : Nat) :
    order.encode width n = order.spell width n := by
  cases order with
  | bigEndian => exact Radix.toBytes_eq_spell width n
  | littleEndian =>
    rw [encode, arrange, Radix.toBytes_eq_spell]
    apply List.ext_getElem (by simp [spell])
    intro i hi _
    have hi : i < width := by simpa [spell] using hi
    have hplace : width - 1 - (width - 1 - i) = i := by omega
    simp [spell, hplace]

@[simp] theorem ByteOrder.length_spell (order : ByteOrder) (width n : Nat) :
    (order.spell width n).length = width := by
  rw [← encode_eq_spell, length_encode]

/-- The byte of the flags, put together by shifts. -/
def StateFlags.packed (f : StateFlags) : UInt8 :=
  f.isSend.toUInt8 <<< 7 ||| f.isReceive.toUInt8 <<< 6 ||| f.isEpoch.toUInt8 <<< 5 |||
    UInt8.ofNat f.epochNumber.val

theorem StateFlags.toByte_eq_packed (f : StateFlags) : f.toByte = f.packed := by
  have h : ∀ (s r e : Bool) (n : Fin 32), toByte ⟨s, r, e, n⟩ = packed ⟨s, r, e, n⟩ := by
    decide +kernel
  exact h f.isSend f.isReceive f.isEpoch f.epochNumber

/-- The flags are the bit groups of their byte: three of one bit, and the epoch of five. -/
theorem StateFlags.split_eq_ofByte (b : UInt8) :
    let f := ofByte b
    Read.split b [1, 1, 1, 5] = .gives (.ok [f.isSend.toUInt8, f.isReceive.toUInt8,
      f.isEpoch.toUInt8, UInt8.ofNat f.epochNumber.val]) := by
  intro f
  have h : ∀ k : Fin 256, splitByte (UInt8.ofFin k) [1, 1, 1, 5] = .gives (some
      [(ofByte (UInt8.ofFin k)).isSend.toUInt8, (ofByte (UInt8.ofFin k)).isReceive.toUInt8,
        (ofByte (UInt8.ofFin k)).isEpoch.toUInt8,
        UInt8.ofNat (ofByte (UInt8.ofFin k)).epochNumber.val]) := by decide +kernel
  rw [Read.split, show splitByte b [1, 1, 1, 5] = _ from h b.toFin]
  rfl

/-! ## The table of fields -/

namespace Block

open ByteOrder

/-- The value of a block: the tag of its kind, the fields of its payload and the fields of its
sideband. All numbers are big-endian, but the work of the kinds other than `state`. -/
def stored : Block → Bytes
  | send p s => 2 :: List.flatten
    [p.previous.bytes, p.destination.key.bytes, bigEndian.spell 16 p.balance.toNat,
      p.signature.bytes, littleEndian.spell 8 p.work.word.toNat,
      s.successor.bytes, s.account.key.bytes, bigEndian.spell 8 s.height.toNat,
      bigEndian.spell 8 s.timestamp.toNat]
  | receive p s => 3 :: List.flatten
    [p.previous.bytes, p.source.bytes, p.signature.bytes, littleEndian.spell 8 p.work.word.toNat,
      s.successor.bytes, s.account.key.bytes, bigEndian.spell 8 s.height.toNat,
      bigEndian.spell 16 s.balance.toNat, bigEndian.spell 8 s.timestamp.toNat]
  | opening p s => 4 :: List.flatten
    [p.source.bytes, p.representative.key.bytes, p.account.key.bytes, p.signature.bytes,
      littleEndian.spell 8 p.work.word.toNat,
      s.successor.bytes, bigEndian.spell 16 s.balance.toNat, bigEndian.spell 8 s.timestamp.toNat]
  | change p s => 5 :: List.flatten
    [p.previous.bytes, p.representative.key.bytes, p.signature.bytes,
      littleEndian.spell 8 p.work.word.toNat,
      s.successor.bytes, s.account.key.bytes, bigEndian.spell 8 s.height.toNat,
      bigEndian.spell 16 s.balance.toNat, bigEndian.spell 8 s.timestamp.toNat]
  | state p s => 6 :: List.flatten
    [p.account.key.bytes, p.previous.bytes, p.representative.key.bytes,
      bigEndian.spell 16 p.balance.toNat, p.link.bytes, p.signature.bytes,
      bigEndian.spell 8 p.work.word.toNat,
      s.successor.bytes, bigEndian.spell 8 s.height.toNat, bigEndian.spell 8 s.timestamp.toNat,
      [s.flags.packed]]
  | unsupported tag contents => tag :: contents

/-- The layouts say what the table says. -/
theorem encode_eq_stored (b : Block) : b.encode = b.stored := by
  cases b <;>
    simp [encode, stored, BlockType.tag, SendPayload.layout, SendSideband.layout,
      ReceivePayload.layout, ReceiveSideband.layout, OpenPayload.layout, OpenSideband.layout,
      ChangePayload.layout, ChangeSideband.layout, StatePayload.layout, StateSideband.layout,
      ByteOrder.encode_eq_spell, StateFlags.toByte_eq_packed]

end Block

/-! ## The five kinds -/

/-- The kinds of blocks that are understood. -/
inductive StoredKind where
  | send
  | receive
  | opening
  | change
  | state
deriving DecidableEq, Repr

namespace StoredKind

/-- What a block of a kind holds. -/
def Contents : StoredKind → Type
  | send => SendPayload × SendSideband
  | receive => ReceivePayload × ReceiveSideband
  | opening => OpenPayload × OpenSideband
  | change => ChangePayload × ChangeSideband
  | state => StatePayload × StateSideband

/-- How the contents of a block are written behind its tag. -/
def layout : (k : StoredKind) → Layout k.Contents
  | send => SendPayload.layout.pair SendSideband.layout
  | receive => ReceivePayload.layout.pair ReceiveSideband.layout
  | opening => OpenPayload.layout.pair OpenSideband.layout
  | change => ChangePayload.layout.pair ChangeSideband.layout
  | state => StatePayload.layout.pair StateSideband.layout

/-- The block with the given contents. -/
def block : (k : StoredKind) → k.Contents → Block
  | send, (p, s) => .send p s
  | receive, (p, s) => .receive p s
  | opening, (p, s) => .opening p s
  | change, (p, s) => .change p s
  | state, (p, s) => .state p s

/-- The tag of a kind. -/
def tag : StoredKind → UInt8
  | send => 2
  | receive => 3
  | opening => 4
  | change => 5
  | state => 6

/-- The number of bytes of a block of a kind, its tag among them. -/
def size : StoredKind → Nat
  | send => 233
  | receive => 233
  | opening => 225
  | change => 233
  | state => 266

theorem size_layout (k : StoredKind) : k.layout.size + 1 = k.size := by cases k <;> rfl

theorem encode_block (k : StoredKind) (c : k.Contents) :
    (k.block c).encode = k.tag :: k.layout.write c := by
  cases k <;> rfl

theorem type?_block (k : StoredKind) (c : k.Contents) : (k.block c).type? ≠ none := by
  cases k <;> exact Option.some_ne_none _

theorem tag_inj {j k : StoredKind} (h : j.tag = k.tag) : j = k := by
  cases j <;> cases k <;> first | rfl | cases h

/-- A tag belongs to a kind or is unknown. -/
theorem tag_cases (t : UInt8) : (∃ k : StoredKind, t = k.tag) ∨ ∀ k : StoredKind, t ≠ k.tag := by
  by_cases h : ∃ k : StoredKind, t = k.tag
  · exact .inl h
  · exact .inr (by simpa using h)

/-- The known tags are the numbers from two to six. -/
theorem unknown_iff (t : UInt8) : (∀ k : StoredKind, t ≠ k.tag) ↔ t ∉ [2, 3, 4, 5, 6] := by
  constructor
  · intro h ht
    simp only [List.mem_cons, List.not_mem_nil, or_false] at ht
    rcases ht with h2 | h3 | h4 | h5 | h6
    · exact h .send h2
    · exact h .receive h3
    · exact h .opening h4
    · exact h .change h5
    · exact h .state h6
  · rintro h k rfl
    cases k <;> simp [tag] at h

/-- An unknown tag is of no kind, or of one that is never stored. -/
theorem ofTag?_of_unknown {t : UInt8} (h : ∀ k : StoredKind, t ≠ k.tag) :
    BlockType.ofTag? t = none ∨ BlockType.ofTag? t = some .invalid ∨
      BlockType.ofTag? t = some .notABlock := by
  cases htype : BlockType.ofTag? t with
  | none => exact .inl rfl
  | some type =>
    have htag := BlockType.tag_of_ofTag? htype
    cases type with
    | invalid => exact .inr (.inl rfl)
    | notABlock => exact .inr (.inr rfl)
    | send => exact absurd htag.symm (h .send)
    | receive => exact absurd htag.symm (h .receive)
    | opening => exact absurd htag.symm (h .opening)
    | change => exact absurd htag.symm (h .change)
    | state => exact absurd htag.symm (h .state)

end StoredKind

namespace Block

/-- A block is of one of the five kinds or opaque. -/
theorem kind_cases (b : Block) :
    (∃ (k : StoredKind) (c : k.Contents), b = k.block c) ∨ ∃ t rest, b = unsupported t rest := by
  cases b with
  | send p s => exact .inl ⟨.send, (p, s), rfl⟩
  | receive p s => exact .inl ⟨.receive, (p, s), rfl⟩
  | opening p s => exact .inl ⟨.opening, (p, s), rfl⟩
  | change p s => exact .inl ⟨.change, (p, s), rfl⟩
  | state p s => exact .inl ⟨.state, (p, s), rfl⟩
  | unsupported t rest => exact .inr ⟨t, rest, rfl⟩

/-- Two layouts read in turn are read as their pair. -/
theorem run_read_read {α β γ : Type} (l : Layout α) (m : Layout β) (f : α → β → γ)
    (pos : Nat) (bytes : Bytes) :
    ((do return f (← l.read) (← m.read) : Read γ).run ⟨pos, bytes⟩).1 =
      ((l.pair m).parse bytes).map fun x => f x.1 x.2 := by
  rw [Layout.parse_pair, Read.run_bind, Layout.run_read]
  cases hl : l.parse bytes with
  | error e => rfl
  | ok a =>
    -- the first part was there, so the cursor stands right behind it
    have hle : l.size ≤ bytes.length := l.size_le_of_parse hl
    rw [if_pos hle]
    dsimp only
    rw [Read.run_bind, Layout.run_read]
    dsimp only [Cursor.advance]
    cases m.parse (bytes.drop l.size) <;> rfl

/-- Behind the tag of a kind a value is read by the layout of that kind. -/
theorem decode_tag (k : StoredKind) (rest : Bytes) :
    decode (k.tag :: rest) = (k.layout.parse rest).map k.block := by
  cases k <;> exact run_read_read _ _ _ _ _

/-- What is decoded behind the tag of a kind is a block of that kind. -/
theorem eq_block_of_decode {k : StoredKind} {rest : Bytes} {b : Block}
    (h : decode (k.tag :: rest) = .ok b) :
    ∃ c, k.layout.parse rest = .ok c ∧ b = k.block c := by
  rw [decode_tag] at h
  cases hparse : k.layout.parse rest with
  | error e =>
    rw [hparse] at h
    cases h
  | ok c =>
    rw [hparse] at h
    cases h
    exact ⟨c, rfl, rfl⟩

/-- Behind an unknown tag all bytes are kept. -/
theorem decode_unknown {t : UInt8} (h : ∀ k : StoredKind, t ≠ k.tag) (rest : Bytes) :
    decode (t :: rest) = .ok (.unsupported t rest) := by
  rw [decode, Read.eval, read, Read.run_bind, Cursor.start, Read.run_byte_cons]
  dsimp only
  rcases StoredKind.ofTag?_of_unknown h with htype | htype | htype <;> rw [htype] <;> rfl

theorem decode_nil : decode [] = .error .truncated := rfl

/-! ## What a value holds -/

/-- Whether a value holds less than its tag demands. An empty value holds no tag. -/
def Short (value : Bytes) : Prop :=
  value = [] ∨ ∃ (k : StoredKind) (rest : Bytes), value = k.tag :: rest ∧ value.length < k.size

/-- A value is empty, a tag of one of the five kinds with bytes behind it, or opaque. -/
theorem value_cases (value : Bytes) :
    value = [] ∨ (∃ (k : StoredKind) (rest : Bytes), value = k.tag :: rest) ∨
      ∃ (t : UInt8) (rest : Bytes), value = t :: rest ∧ ∀ k : StoredKind, t ≠ k.tag := by
  cases value with
  | nil => exact .inl rfl
  | cons t rest =>
    obtain ⟨k, rfl⟩ | h := StoredKind.tag_cases t
    · exact .inr (.inl ⟨k, rest, rfl⟩)
    · exact .inr (.inr ⟨t, rest, rfl, h⟩)

/-- A value with the tag of a kind is short if it has fewer bytes than the kind demands. -/
theorem short_tag (k : StoredKind) (rest : Bytes) :
    Short (k.tag :: rest) ↔ (k.tag :: rest).length < k.size := by
  constructor
  · rintro (hnil | ⟨j, rest', hcons, hlt⟩)
    · cases hnil
    · obtain ⟨htag, rfl⟩ := List.cons.inj hcons
      rwa [StoredKind.tag_inj htag]
  · intro h
    exact .inr ⟨k, rest, rfl, h⟩

/-- Decoding fails for short values only, and always in the same way. -/
theorem decode_eq_error (value : Bytes) (e : LedgerError) :
    decode value = .error e ↔ Short value ∧ e = .truncated := by
  obtain rfl | ⟨k, rest, rfl⟩ | ⟨t, rest, rfl, ht⟩ := value_cases value
  · rw [decode_nil, Except.error.injEq]
    exact ⟨fun h => ⟨.inl rfl, h.symm⟩, fun h => h.2.symm⟩
  · rw [short_tag, decode_tag, ← k.size_layout, List.length_cons, Nat.add_lt_add_iff_right,
      ← Layout.parse_eq_error]
    cases k.layout.parse rest with
    | error e' => rw [Except.map, Except.error.injEq, Except.error.injEq]
    | ok c => exact ⟨nofun, nofun⟩
  · rw [decode_unknown ht]
    constructor
    · intro h
      cases h
    · rintro ⟨hnil | ⟨k, rest', hk, -⟩, -⟩
      · cases hnil
      · cases hk
        exact absurd rfl (ht k)

/-- A value holds a block of a known kind exactly if it begins with the bytes of that block. -/
theorem decode_eq_ok {b : Block} (hb : b.type? ≠ none) (value : Bytes) :
    decode value = .ok b ↔ b.stored <+: value := by
  constructor
  · intro h
    obtain rfl | ⟨k, rest, rfl⟩ | ⟨t, rest, rfl, ht⟩ := value_cases value
    · cases h
    · obtain ⟨c, hparse, rfl⟩ := eq_block_of_decode h
      rw [← encode_eq_stored, k.encode_block, k.layout.eq_write_of_parse hparse]
      exact ⟨_, rfl⟩
    · rw [decode_unknown ht] at h
      cases h
      exact absurd rfl hb
  · rintro ⟨rest, rfl⟩
    obtain ⟨k, c, rfl⟩ | ⟨t, contents, rfl⟩ := b.kind_cases
    · rw [← encode_eq_stored, k.encode_block, List.cons_append, decode_tag, Layout.parse_append]
      rfl
    · exact absurd rfl hb

/-- A value holds an opaque block exactly if its tag is unknown. -/
theorem decode_eq_unsupported (t : UInt8) (contents value : Bytes) :
    decode value = .ok (.unsupported t contents) ↔
      value = t :: contents ∧ t ∉ [2, 3, 4, 5, 6] := by
  rw [← StoredKind.unknown_iff]
  constructor
  · intro h
    obtain rfl | ⟨k, rest, rfl⟩ | ⟨t', rest, rfl, ht⟩ := value_cases value
    · cases h
    · obtain ⟨c, -, hc⟩ := eq_block_of_decode h
      exact absurd (hc ▸ rfl) (k.type?_block c)
    · rw [decode_unknown ht] at h
      cases h
      exact ⟨rfl, ht⟩
  · rintro ⟨rfl, ht⟩
    exact decode_unknown ht contents

/-- A state block of the account of zeros, at a height of its chain. -/
def zerosAt (height : UInt64) : Block :=
  .state
    { account := ⟨.zero 32⟩, previous := .zero .blockHash, representative := ⟨.zero 32⟩,
      balance := ⟨⟨5, by decide⟩⟩, link := .zero .link, signature := .zero .signature,
      work := ⟨1⟩ }
    { successor := .zero .blockHash, height, timestamp := 7,
      flags := { isSend := true, isReceive := false, isEpoch := false, epochNumber := 3 } }

end Block

end NanoLedger
