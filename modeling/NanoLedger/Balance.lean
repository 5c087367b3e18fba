import NanoLedger.Layout

/-!
# Balances

Balances and amounts are unsigned 128-bit numbers of the smallest unit, shown in decimal.
-/

namespace NanoLedger

/-- A balance or an amount. -/
structure Balance where
  raw : Fin (Radix.capacity 16)
deriving DecidableEq

namespace Balance

/-- The number of units. -/
def toNat (b : Balance) : Nat := b.raw.val

theorem toNat_inj {a b : Balance} (h : a.toNat = b.toNat) : a = b :=
  congrArg mk (Fin.ext h)

/-- Balances are ordered as numbers of units. -/
instance : Ord Balance where
  compare a b := compare a.raw b.raw

instance : LT Balance := ltOfOrd

theorem lt_iff_toNat_lt {a b : Balance} : a < b ↔ a.toNat < b.toNat := Nat.compare_eq_lt

/-- A number of units, if it is in range. -/
def ofNat? (n : Nat) : Option Balance :=
  if h : n < Radix.capacity 16 then some ⟨⟨n, h⟩⟩ else none

/-- The decimal text of a balance. -/
def text (b : Balance) : String := toString b.toNat

/-- The balance as it is shown to a programmer. -/
def inspect (b : Balance) : String := "Balance(" ++ b.text ++ ")"

/-- The distance between two balances. -/
def delta (a b : Balance) : Balance :=
  if a.raw ≤ b.raw then ⟨⟨b.toNat - a.toNat, by have := b.raw.isLt; simp only [toNat]; omega⟩⟩
  else ⟨⟨a.toNat - b.toNat, by have := a.raw.isLt; simp only [toNat]; omega⟩⟩

/-- The distance between two balances, told over the integers. -/
theorem toNat_delta (a b : Balance) : (a.delta b).toNat = ((a.toNat : Int) - b.toNat).natAbs := by
  rw [delta]
  split
  · next h =>
    have h : a.toNat ≤ b.toNat := h
    show b.toNat - a.toNat = _
    omega
  · next h =>
    have h : ¬ a.toNat ≤ b.toNat := h
    show a.toNat - b.toNat = _
    omega

/-- A balance in a value: sixteen bytes. -/
def layout (order : ByteOrder) : Layout Balance :=
  (Layout.number 16 order).map mk raw (fun _ => rfl) (fun _ => rfl)

@[simp] theorem write_layout (order : ByteOrder) (b : Balance) :
    (layout order).write b = order.encode 16 b.toNat := rfl

/-- The balance that sixteen bytes hold. -/
def ofOctets (order : ByteOrder) (o : Octets 16) : Balance := (layout order).decode o

end Balance

end NanoLedger
