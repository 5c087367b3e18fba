/-!
# Calls that may panic

A call that panics gives no result and ends the program where it stands. Arithmetic on words is
checked: a sum or a difference that is not a word, and a shift by the whole width of a word or more,
panic.
-/

namespace NanoLedger

/-- How a call ends. -/
inductive Call (α : Type) where
  | gives (result : α)
  | panics
deriving DecidableEq, Repr

namespace Call

variable {α β : Type}

/-- Go on with the result of a call; a panic is final. -/
def andThen : Call α → (α → Call β) → Call β
  | gives a, f => f a
  | panics, _ => panics

instance : Monad Call where
  pure := gives
  bind := andThen

@[simp] theorem gives_bind (a : α) (f : α → Call β) : (gives a >>= f) = f a := rfl

@[simp] theorem panics_bind (f : α → Call β) : (panics >>= f) = panics := rfl

@[simp] theorem pure_eq (a : α) : (pure a : Call α) = gives a := rfl

@[simp] theorem map_gives (f : α → β) (a : α) : f <$> gives a = gives (f a) := rfl

@[simp] theorem map_panics (f : α → β) : f <$> (panics : Call α) = panics := rfl

theorem bind_eq_gives {c : Call α} {f : α → Call β} {b : β} :
    (c >>= f) = gives b ↔ ∃ a, c = gives a ∧ f a = gives b := by
  cases c <;> simp

theorem bind_eq_panics {c : Call α} {f : α → Call β} :
    (c >>= f) = panics ↔ c = panics ∨ ∃ a, c = gives a ∧ f a = panics := by
  cases c <;> simp

end Call

namespace Checked

/-- The sum of two words. -/
def add (a b : UInt32) : Call UInt32 :=
  if a.toNat + b.toNat < UInt32.size then .gives (a + b) else .panics

/-- The sum of words, taken from the first one on. -/
def sum (words : List UInt32) : Call UInt32 := words.foldlM add 0

/-- The difference of two words. -/
def sub (a b : UInt32) : Call UInt32 := if b ≤ a then .gives (a - b) else .panics

/-- A 16-bit word shifted to the left by `n` bits. -/
def shiftLeft (a : UInt16) (n : UInt32) : Call UInt16 :=
  if n.toNat < 16 then .gives (a <<< n.toUInt16) else .panics

/-- A byte shifted to the right by `n` bits. -/
def shiftRight (a : UInt8) (n : UInt32) : Call UInt8 :=
  if n.toNat < 8 then .gives (a >>> n.toUInt8) else .panics

end Checked

end NanoLedger
