import NanoLedger.Bytes.Radix
import NanoLedger.Bytes.BitGroups
import NanoLedger.Error

/-!
# Reading a byte string from front to back

A cursor stands between the bytes already read and the rest. Every read asks for a known number of
bytes. It gives exactly the next ones and moves past them, or, if fewer are left, fails as a
truncated record and moves to the end (`Read.octets`). A failed read keeps the cursor where it left
it, so a later read starts from there.

Two reads may panic (`CheckedRead`): that of as many bytes as the caller says, for which room is made
first, and that of bit groups.
-/

namespace NanoLedger

/-- A place in a byte string: how many bytes lie before it, and the bytes after it. -/
structure Cursor where
  pos : Nat
  rest : Bytes
deriving DecidableEq, Repr

namespace Cursor

/-- The beginning of a byte string. -/
def start (bytes : Bytes) : Cursor := ⟨0, bytes⟩

/-- Whether nothing is left to read. -/
def isExhausted (c : Cursor) : Bool := c.rest.isEmpty

/-- The place `n` bytes further on. -/
def advance (c : Cursor) (n : Nat) : Cursor := ⟨c.pos + n, c.rest.drop n⟩

/-- The end of the byte string. -/
def toEnd (c : Cursor) : Cursor := ⟨c.pos + c.rest.length, []⟩

end Cursor

/-- A computation that reads from a cursor and may fail; the cursor outlives the failure. -/
def Read (α : Type) : Type := Cursor → Except LedgerError α × Cursor

namespace Read

variable {α β : Type}

/-- The outcome of reading from a cursor, and where the cursor stands afterwards. -/
def run (r : Read α) (c : Cursor) : Except LedgerError α × Cursor := r c

/-- The outcome of reading a byte string from its beginning. -/
def eval (r : Read α) (bytes : Bytes) : Except LedgerError α := (r.run (.start bytes)).1

/-- Read on after a success; a failure is final. -/
def andThen (r : Read α) (f : α → Read β) : Read β := fun c =>
  match r c with
  | (.ok a, c) => f a c
  | (.error e, c) => (.error e, c)

instance : Monad Read where
  pure a := fun c => (.ok a, c)
  bind := andThen

/-- Fail without reading. -/
def fail (e : LedgerError) : Read α := fun c => (.error e, c)

@[simp] theorem run_pure (a : α) (c : Cursor) : (pure a : Read α).run c = (.ok a, c) := rfl

@[simp] theorem run_fail (e : LedgerError) (c : Cursor) :
    (fail e : Read α).run c = (.error e, c) := rfl

theorem run_bind (r : Read α) (f : α → Read β) (c : Cursor) : (r >>= f).run c =
    match r.run c with
    | (.ok a, c) => (f a).run c
    | (.error e, c) => (.error e, c) := rfl

/-- The next `n` bytes. -/
def octets (n : Nat) : Read (Octets n) := fun c =>
  if h : n ≤ c.rest.length then
    (.ok ⟨c.rest.take n, List.length_take_of_le h⟩, c.advance n)
  else (.error .truncated, c.toEnd)

theorem run_octets_of_le {n : Nat} {c : Cursor} (h : n ≤ c.rest.length) :
    (octets n).run c = (.ok ⟨c.rest.take n, List.length_take_of_le h⟩, c.advance n) :=
  dif_pos h

theorem run_octets_of_lt {n : Nat} {c : Cursor} (h : c.rest.length < n) :
    (octets n).run c = (.error .truncated, c.toEnd) :=
  dif_neg (Nat.not_le.2 h)

/-- The next byte. -/
def byte : Read UInt8 := do return (← octets 1).bytes.headD 0

theorem run_byte_cons (pos : Nat) (b : UInt8) (bytes : Bytes) :
    byte.run ⟨pos, b :: bytes⟩ = (.ok b, ⟨pos + 1, bytes⟩) := rfl

/-- The next `n` bytes as a number. -/
def number (n : Nat) (order : ByteOrder) : Read Nat := do
  return order.decode (← octets n).bytes

/-- An unsigned integer of one, two or eight bytes. Other widths are refused before anything is
read. -/
def uint (width : Nat) (order : ByteOrder) : Read Nat :=
  if width = 1 ∨ width = 2 ∨ width = 8 then number width order
  else fail (.misuse ("unsupported integer width: " ++ toString width))

/-- All that is left. -/
def remaining : Read Bytes := fun c => (.ok c.rest, c.toEnd)

/-- The error for widths that do not cover a byte. -/
def uncovered (widths : List UInt32) : LedgerError :=
  let list := String.intercalate ", " (widths.map fun w => toString w.toNat)
  .misuse ("bit widths [" ++ list ++ "] do not cover one byte")

/-- The bit groups of a byte. -/
def split (byte : UInt8) (widths : List UInt32) : Call (Except LedgerError (List UInt8)) := do
  match ← splitByte byte widths with
  | some groups => return .ok groups
  | none => return .error (uncovered widths)

end Read

/-- A read that may panic. -/
def CheckedRead (α : Type) : Type := Cursor → Call (Except LedgerError α × Cursor)

namespace CheckedRead

variable {α β : Type}

/-- How reading from a cursor ends. -/
def run (r : CheckedRead α) (c : Cursor) : Call (Except LedgerError α × Cursor) := r c

/-- A read that never panics. -/
def ofRead (r : Read α) : CheckedRead α := fun c => .gives (r.run c)

/-- What is read, in another form. -/
def map (f : α → β) (r : CheckedRead α) : CheckedRead β := fun c => do
  let (answer, next) ← r.run c
  return (answer.map f, next)

/-- The length from which on no byte string is made. -/
def tooLong : Nat := UInt64.size / 2

/-- The next `n` bytes, as a byte string. Room for them is made before anything is read. -/
def bytes (n : Nat) : CheckedRead Bytes := fun c =>
  if n < tooLong then (ofRead (do return (← Read.octets n).bytes)).run c else .panics

/-- The bit groups of the next byte. The byte is read before the widths are looked at. -/
def bitField (widths : List UInt32) : CheckedRead (List UInt8) := fun c =>
  match Read.byte.run c with
  | (.ok byte, next) => do return (← Read.split byte widths, next)
  | (.error e, next) => .gives (.error e, next)

end CheckedRead

end NanoLedger
