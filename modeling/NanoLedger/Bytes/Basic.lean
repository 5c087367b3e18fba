/-!
# Byte strings

Keys and values of a ledger are byte strings (`Bytes`). They are ordered lexicographically by `<`,
a proper beginning of a string being smaller than the string; this is the order in which tables are
walked and key ranges are cut. A field inside a key or a value has a fixed length, and `Octets n`
carries that length in its type.
-/

namespace NanoLedger

/-- A byte string. -/
abbrev Bytes := List UInt8

/-- A byte string of exactly `n` bytes. -/
structure Octets (n : Nat) where
  bytes : Bytes
  length_eq : bytes.length = n
deriving DecidableEq

namespace Octets

theorem ext_bytes {n : Nat} : ∀ {a b : Octets n}, a.bytes = b.bytes → a = b
  | ⟨_, _⟩, ⟨_, _⟩, rfl => rfl

/-- The bytes as `n` octets, if there are exactly `n` of them. -/
def ofBytes? (n : Nat) (bytes : Bytes) : Option (Octets n) :=
  if h : bytes.length = n then some ⟨bytes, h⟩ else none

/-- The octets that are all zero. -/
def zero (n : Nat) : Octets n := ⟨List.replicate n 0, List.length_replicate⟩

instance (n : Nat) : Inhabited (Octets n) := ⟨zero n⟩

/-- Whether every octet is zero. -/
def isZero {n : Nat} (o : Octets n) : Bool := o.bytes.all (· == 0)

/-- `m` octets followed by `n` octets. -/
def append {m n : Nat} (a : Octets m) (b : Octets n) : Octets (m + n) :=
  ⟨a.bytes ++ b.bytes, by simp [a.length_eq, b.length_eq]⟩

/-- The first `m` of `m + n` octets. -/
def left {m n : Nat} (o : Octets (m + n)) : Octets m :=
  ⟨o.bytes.take m, by simp [o.length_eq]⟩

/-- The last `n` of `m + n` octets. -/
def right {m n : Nat} (o : Octets (m + n)) : Octets n :=
  ⟨o.bytes.drop m, by simp [o.length_eq]⟩

@[simp] theorem left_append {m n : Nat} (a : Octets m) (b : Octets n) : (a.append b).left = a :=
  ext_bytes (by simp [append, left, ← a.length_eq])

@[simp] theorem right_append {m n : Nat} (a : Octets m) (b : Octets n) : (a.append b).right = b :=
  ext_bytes (by simp [append, right, ← a.length_eq])

@[simp] theorem append_left_right {m n : Nat} (o : Octets (m + n)) : o.left.append o.right = o :=
  ext_bytes (by simp [append, left, right])

end Octets

/-- The bytes of a text in UTF-8. -/
def Text.utf8 (text : String) : Bytes := text.toUTF8.data.toList

end NanoLedger
