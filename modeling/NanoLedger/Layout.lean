import NanoLedger.Cursor

/-!
# Layouts of fixed length

A layout (`Layout α`) is a bijection between the byte strings of one length and the values of a
type. Layouts of fields are put together with `Layout.pair` and given the shape of a record with
`Layout.map`, so a record's layout states once which fields follow each other, in which byte order,
for reading as well as for writing. Reading a layout fails only where bytes are missing
(`Layout.parse_append`, `Layout.parse_eq_error`).
-/

namespace NanoLedger

/-- How values of a type are written in `size` bytes, each value in exactly one way. -/
structure Layout (α : Type) where
  size : Nat
  decode : Octets size → α
  encode : α → Octets size
  decode_encode : ∀ a, decode (encode a) = a
  encode_decode : ∀ o, encode (decode o) = o

namespace Layout

variable {α β : Type}

/-- Read the next `size` bytes. -/
def read (l : Layout α) : Read α := do return l.decode (← Read.octets l.size)

/-- Read a byte string from its beginning; what follows is ignored. -/
def parse (l : Layout α) (bytes : Bytes) : Except LedgerError α := l.read.eval bytes

/-- The bytes of a value. -/
def write (l : Layout α) (a : α) : Bytes := (l.encode a).bytes

@[simp] theorem length_write (l : Layout α) (a : α) : (l.write a).length = l.size :=
  (l.encode a).length_eq

/-- No bytes at all. -/
def empty : Layout Unit where
  size := 0
  decode _ := ()
  encode _ := .zero 0
  decode_encode _ := rfl
  encode_decode o := Octets.ext_bytes (by
    have := List.eq_nil_of_length_eq_zero o.length_eq
    rw [this]; rfl)

/-- The bytes as they stand. -/
def octets (n : Nat) : Layout (Octets n) where
  size := n
  decode o := o
  encode o := o
  decode_encode _ := rfl
  encode_decode _ := rfl

/-- One layout after another. -/
def pair (l : Layout α) (m : Layout β) : Layout (α × β) where
  size := l.size + m.size
  decode o := (l.decode o.left, m.decode o.right)
  encode x := (l.encode x.1).append (m.encode x.2)
  decode_encode x := by simp [l.decode_encode, m.decode_encode]
  encode_decode o := by simp [l.encode_decode, m.encode_decode]

/-- A layout seen through a bijection of its values. -/
def map (l : Layout α) (f : α → β) (g : β → α) (f_g : ∀ b, f (g b) = b)
    (g_f : ∀ a, g (f a) = a) : Layout β where
  size := l.size
  decode o := f (l.decode o)
  encode b := l.encode (g b)
  decode_encode b := by rw [l.decode_encode, f_g]
  encode_decode o := by rw [g_f, l.encode_decode]

/-- An unsigned number of `n` bytes. -/
def number (n : Nat) (order : ByteOrder) : Layout (Fin (Radix.capacity n)) where
  size := n
  decode o := ⟨order.decode o.bytes, by have := order.decode_lt o.bytes; rwa [o.length_eq] at this⟩
  encode k := ⟨order.encode n k.val, order.length_encode n k.val⟩
  decode_encode k := Fin.ext (order.decode_encode k.isLt)
  encode_decode o := Octets.ext_bytes (by
    have := order.encode_decode o.bytes
    rwa [o.length_eq] at this)

/-- A byte. -/
def byte : Layout UInt8 :=
  (number 1 .bigEndian).map UInt8.ofFin UInt8.toFin (fun _ => rfl) (fun _ => rfl)

/-- A 16-bit word. -/
def word16 (order : ByteOrder) : Layout UInt16 :=
  (number 2 order).map UInt16.ofFin UInt16.toFin (fun _ => rfl) (fun _ => rfl)

/-- A 64-bit word. -/
def word64 (order : ByteOrder) : Layout UInt64 :=
  (number 8 order).map UInt64.ofFin UInt64.toFin (fun _ => rfl) (fun _ => rfl)

@[simp] theorem write_pair (l : Layout α) (m : Layout β) (x : α × β) :
    (l.pair m).write x = l.write x.1 ++ m.write x.2 := rfl

@[simp] theorem write_map (l : Layout α) (f : α → β) (g : β → α) (f_g : ∀ b, f (g b) = b)
    (g_f : ∀ a, g (f a) = a) (b : β) : (l.map f g f_g g_f).write b = l.write (g b) := rfl

@[simp] theorem write_byte (b : UInt8) : byte.write b = [b] := by
  have h : byte.write b = [UInt8.ofNat (b.toNat / 1)] := rfl
  simpa using h

@[simp] theorem write_octets {n : Nat} (o : Octets n) : (octets n).write o = o.bytes := rfl

@[simp] theorem write_word16 (order : ByteOrder) (w : UInt16) :
    (word16 order).write w = order.encode 2 w.toNat := rfl

@[simp] theorem write_word64 (order : ByteOrder) (w : UInt64) :
    (word64 order).write w = order.encode 8 w.toNat := rfl

/-- Reading gives the value of the first `size` bytes, or fails if there are not as many. -/
theorem parse_eq (l : Layout α) (bytes : Bytes) : l.parse bytes =
    if h : l.size ≤ bytes.length then
      .ok (l.decode ⟨bytes.take l.size, List.length_take_of_le h⟩)
    else .error .truncated := by
  by_cases h : l.size ≤ bytes.length
  · rw [dif_pos h, parse, read, Read.eval, Read.run_bind, Read.run_octets_of_le h]
    rfl
  · rw [dif_neg h, parse, read, Read.eval, Read.run_bind, Read.run_octets_of_lt (Nat.not_le.1 h)]

/-- From a cursor a layout reads what is left, and moves past it or to the end. -/
theorem run_read (l : Layout α) (c : Cursor) :
    l.read.run c =
      (l.parse c.rest, if l.size ≤ c.rest.length then c.advance l.size else c.toEnd) := by
  rw [parse_eq]
  by_cases h : l.size ≤ c.rest.length
  · rw [dif_pos h, if_pos h, read, Read.run_bind, Read.run_octets_of_le h]
    rfl
  · rw [dif_neg h, if_neg h, read, Read.run_bind, Read.run_octets_of_lt (Nat.not_le.1 h)]

/-- What is read from a byte string that begins with the bytes of a value is that value. -/
theorem parse_append (l : Layout α) (a : α) (rest : Bytes) :
    l.parse (l.write a ++ rest) = .ok a := by
  have hlen : l.size ≤ (l.write a ++ rest).length := by simp
  have htake : (⟨_, List.length_take_of_le hlen⟩ : Octets l.size) = l.encode a :=
    Octets.ext_bytes (List.take_left' (l.length_write a))
  rw [parse_eq, dif_pos hlen, htake, l.decode_encode]

/-- A byte string from which a value is read begins with the bytes of that value. -/
theorem eq_write_of_parse (l : Layout α) {bytes : Bytes} {a : α} (h : l.parse bytes = .ok a) :
    bytes = l.write a ++ bytes.drop l.size := by
  rw [parse_eq] at h
  split at h
  · cases h
    simp [write, l.encode_decode]
  · cases h

/-- A value is read exactly from the byte strings that begin with its bytes. -/
theorem parse_eq_ok (l : Layout α) {bytes : Bytes} {a : α} :
    l.parse bytes = .ok a ↔ l.write a <+: bytes := by
  constructor
  · intro h
    rw [l.eq_write_of_parse h]
    exact List.prefix_append _ _
  · rintro ⟨rest, rfl⟩
    exact l.parse_append a rest

/-- A value is read only where its bytes are. -/
theorem size_le_of_parse (l : Layout α) {bytes : Bytes} {a : α} (h : l.parse bytes = .ok a) :
    l.size ≤ bytes.length := by
  rw [l.eq_write_of_parse h]
  simp

/-- Reading fails exactly where bytes are missing, as a truncated record. -/
theorem parse_eq_error (l : Layout α) (bytes : Bytes) (e : LedgerError) :
    l.parse bytes = .error e ↔ bytes.length < l.size ∧ e = .truncated := by
  rw [parse_eq]
  split
  · simp; omega
  · constructor
    · intro h; cases h; exact ⟨by omega, rfl⟩
    · rintro ⟨-, rfl⟩; rfl

/-- A pair is read in two steps, the second one behind the first one. -/
theorem parse_pair (l : Layout α) (m : Layout β) (bytes : Bytes) :
    (l.pair m).parse bytes = do
      let a ← l.parse bytes
      let b ← m.parse (bytes.drop l.size)
      return (a, b) := by
  have hsize : (l.pair m).size = l.size + m.size := rfl
  cases ha : l.parse bytes with
  | error e =>
    obtain ⟨hlt, rfl⟩ := (l.parse_eq_error bytes e).1 ha
    exact ((l.pair m).parse_eq_error bytes _).2 ⟨by omega, rfl⟩
  | ok a =>
    cases hb : m.parse (bytes.drop l.size) with
    | error e =>
      obtain ⟨hlt, rfl⟩ := (m.parse_eq_error _ e).1 hb
      rw [List.length_drop] at hlt
      exact ((l.pair m).parse_eq_error bytes _).2 ⟨by omega, rfl⟩
    | ok b =>
      have hbytes := l.eq_write_of_parse ha
      rw [m.eq_write_of_parse hb, ← List.append_assoc] at hbytes
      rw [hbytes]
      exact (l.pair m).parse_append (a, b) _

end Layout

end NanoLedger
