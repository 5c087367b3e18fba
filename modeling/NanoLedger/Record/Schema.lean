import NanoLedger.Layout

/-!
# Records split over a key and a value

Most tables spread a record over a key and a value of fixed lengths. A schema joins a layout for
each of the two. The key is read first; bytes behind either are ignored. Decoding fails only where
bytes are missing (`Schema.decode_eq_error`) and is undone by encoding (`Schema.decode_append`,
`Schema.eq_encode_of_decode`), where a record is that of its parts (`Schema.Stored`).
-/

namespace NanoLedger

/-- A record as a key part of type `κ` and a value part of type `ν`. -/
structure Schema (α κ ν : Type) where
  key : Layout κ
  value : Layout ν
  join : κ → ν → α
  keyPart : α → κ
  valuePart : α → ν
  keyPart_join : ∀ k v, keyPart (join k v) = k
  valuePart_join : ∀ k v, valuePart (join k v) = v

namespace Schema

variable {α κ ν : Type}

/-- The record of a key and a value. -/
def decode (s : Schema α κ ν) (key value : Bytes) : Except LedgerError α := do
  let k ← s.key.parse key
  let v ← s.value.parse value
  return s.join k v

/-- The key of a record. -/
def writeKey (s : Schema α κ ν) (a : α) : Bytes := s.key.write (s.keyPart a)

/-- The value of a record. -/
def writeValue (s : Schema α κ ν) (a : α) : Bytes := s.value.write (s.valuePart a)

/-- Whether a record is the one that is made of its parts. -/
def Stored (s : Schema α κ ν) (a : α) : Prop := s.join (s.keyPart a) (s.valuePart a) = a

theorem decode_append (s : Schema α κ ν) {a : α} (h : s.Stored a) (x y : Bytes) :
    s.decode (s.writeKey a ++ x) (s.writeValue a ++ y) = .ok a := by
  rw [decode, writeKey, writeValue, Layout.parse_append, Layout.parse_append]
  exact congrArg Except.ok h

theorem exists_of_decode (s : Schema α κ ν) {key value : Bytes} {a : α}
    (h : s.decode key value = .ok a) :
    ∃ k v, s.key.parse key = .ok k ∧ s.value.parse value = .ok v ∧ a = s.join k v := by
  rw [decode] at h
  cases hk : s.key.parse key with
  | error e =>
    rw [hk] at h
    cases h
  | ok k =>
    cases hv : s.value.parse value with
    | error e =>
      rw [hk, hv] at h
      cases h
    | ok v =>
      rw [hk, hv] at h
      cases h
      exact ⟨k, v, rfl, rfl, rfl⟩

theorem eq_encode_of_decode (s : Schema α κ ν) {key value : Bytes} {a : α}
    (h : s.decode key value = .ok a) :
    key = s.writeKey a ++ key.drop s.key.size ∧ value = s.writeValue a ++ value.drop s.value.size := by
  obtain ⟨k, v, hk, hv, rfl⟩ := s.exists_of_decode h
  rw [writeKey, writeValue, s.keyPart_join, s.valuePart_join]
  exact ⟨s.key.eq_write_of_parse hk, s.value.eq_write_of_parse hv⟩

/-- What is read is made of its parts. -/
theorem stored_of_decode (s : Schema α κ ν) {key value : Bytes} {a : α}
    (h : s.decode key value = .ok a) : s.Stored a := by
  obtain ⟨k, v, -, -, rfl⟩ := s.exists_of_decode h
  rw [Stored, s.keyPart_join, s.valuePart_join]

/-- A record that is made of its parts is read exactly from the entries that begin with its key and
its value, and no other one is read. -/
theorem decode_eq_ok (s : Schema α κ ν) {key value : Bytes} {a : α} :
    s.decode key value = .ok a ↔
      s.Stored a ∧ s.writeKey a <+: key ∧ s.writeValue a <+: value := by
  constructor
  · intro h
    obtain ⟨hkey, hvalue⟩ := s.eq_encode_of_decode h
    refine ⟨s.stored_of_decode h, ?_⟩
    rw [hkey, hvalue]
    exact ⟨List.prefix_append _ _, List.prefix_append _ _⟩
  · rintro ⟨hstored, ⟨x, rfl⟩, y, rfl⟩
    exact s.decode_append hstored x y

theorem decode_eq_error (s : Schema α κ ν) (key value : Bytes) (e : LedgerError) :
    s.decode key value = .error e ↔
      (key.length < s.key.size ∨ value.length < s.value.size) ∧ e = .truncated := by
  unfold decode
  cases hk : s.key.parse key with
  | error f =>
    obtain ⟨hlt, rfl⟩ := (s.key.parse_eq_error key f).1 hk
    simp [bind, Except.bind, hlt, eq_comm]
  | ok k =>
    have hk' : ¬ key.length < s.key.size := fun h => by
      rw [(s.key.parse_eq_error key .truncated).2 ⟨h, rfl⟩] at hk; cases hk
    cases hv : s.value.parse value with
    | error f =>
      obtain ⟨hlt, rfl⟩ := (s.value.parse_eq_error value f).1 hv
      simp [bind, Except.bind, hlt, eq_comm]
    | ok v =>
      have hv' : ¬ value.length < s.value.size := fun h => by
        rw [(s.value.parse_eq_error value .truncated).2 ⟨h, rfl⟩] at hv; cases hv
      simp [bind, Except.bind, pure, Except.pure, hk', hv']

end Schema

end NanoLedger
