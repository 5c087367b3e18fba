import Mathlib.Algebra.BigOperators.Fin
import NanoLedger.Proofs.RecordText

/-!
# Balances as numbers

Sixteen bytes hold a number of units in base 256, most or least significant byte first
(`Octets.decode_bigEndian`, `Octets.decode_littleEndian`), and every number below `2 ^ 128` has
exactly one such form. So the first form orders balances as its bytes are ordered, from the left
(`Radix.ofBytes_lt_ofBytes`), and whoever reads a balance from a longer byte string finds the number
that its first sixteen bytes hold (`Balance.run_read_layout`, `Balance.run_read_number`). The
distance of two balances is that of their numbers over the integers (`Balance.toNat_delta`), from
which its laws follow. All this together is `Balance.units_exact`.
-/

namespace NanoLedger

namespace Octets

variable {n : Nat}

/-- The octet at a place. -/
def get (o : Octets n) (i : Fin n) : UInt8 := o.bytes.get (i.cast o.length_eq.symm)

/-- The octets in the opposite order. -/
def reverse (o : Octets n) : Octets n :=
  ⟨o.bytes.reverse, o.bytes.length_reverse.trans o.length_eq⟩

end Octets

/-! ## Digits in base 256 -/

namespace Radix

/-- A number is the sum of its digits, each as many times as the digits behind it have values. -/
theorem ofBytes_eq_sum (bs : Bytes) :
    ofBytes bs = ∑ i : Fin bs.length, (bs.get i).toNat * 256 ^ (bs.length - 1 - i.val) := by
  induction bs with
  | nil => rfl
  | cons b bs ih =>
    have hplace (i : Fin bs.length) : bs.length - i.succ.val = bs.length - 1 - i.val := by
      rw [Fin.val_succ]
      omega
    show b.toNat * 256 ^ bs.length + ofBytes bs =
      ∑ i : Fin (bs.length + 1), ((b :: bs).get i).toNat * 256 ^ (bs.length - i.val)
    rw [Fin.sum_univ_succ, ih]
    simp only [hplace]
    rfl

/-- Of two numbers with as many low digits, the one with the greater leading digit is the greater
one, and if these are the same, the low digits tell. -/
theorem leading_lt_iff {a b m n c : Nat} (hm : m < c) (hn : n < c) :
    a * c + m < b * c + n ↔ a < b ∨ a = b ∧ m < n := by
  have leading {a b m : Nat} (n : Nat) (hm : m < c) (hlt : a < b) : a * c + m < b * c + n := by
    have hle : (a + 1) * c ≤ b * c := Nat.mul_le_mul_right c hlt
    rw [Nat.add_mul, Nat.one_mul] at hle
    omega
  obtain hlt | rfl | hgt := Nat.lt_trichotomy a b
  · exact iff_of_true (leading n hm hlt) (.inl hlt)
  · omega
  · have := leading m hn hgt
    omega

/-- Numbers of as many digits are ordered as their digits are, from the left. -/
theorem ofBytes_lt_ofBytes {as bs : Bytes} (h : as.length = bs.length) :
    ofBytes as < ofBytes bs ↔ as < bs := by
  induction as generalizing bs with
  | nil =>
    rw [List.eq_nil_of_length_eq_zero h.symm]
    exact iff_of_false (Nat.lt_irrefl 0) (List.lt_irrefl [])
  | cons a as ih =>
    cases bs with
    | nil => cases h
    | cons b bs =>
      have hlength : as.length = bs.length := Nat.succ.inj h
      have has := ofBytes_lt as
      rw [hlength] at has
      rw [ofBytes, ofBytes, hlength, leading_lt_iff has (ofBytes_lt bs), ih hlength,
        List.cons_lt_cons_iff, UInt8.lt_iff_toNat_lt, UInt8.toNat_inj]

end Radix

/-- Most significant byte first, the byte at place `i` of `n` counts `256 ^ (n - 1 - i)` times. -/
theorem Octets.decode_bigEndian {n : Nat} (o : Octets n) :
    ByteOrder.bigEndian.decode o.bytes =
      ∑ i : Fin n, (o.get i).toNat * 256 ^ (n - 1 - i.val) := by
  obtain ⟨bytes, rfl⟩ := o
  exact Radix.ofBytes_eq_sum bytes

theorem Octets.getElem?_bytes {n : Nat} (o : Octets n) (i : Fin n) :
    o.bytes[i.val]? = some (o.get i) := List.getElem?_eq_getElem _

/-- In the opposite order, a place has the octet of the place as far from the other end. -/
theorem Octets.get_reverse {n : Nat} (o : Octets n) (i : Fin n) :
    o.reverse.get i.rev = o.get i := by
  have hplace : o.bytes.length - 1 - i.rev.val = i.val := by
    rw [o.length_eq, Fin.val_rev]
    omega
  have hlt : i.rev.val < o.bytes.length := o.length_eq.symm ▸ i.rev.isLt
  have hsome : some (o.reverse.get i.rev) = some (o.get i) := by
    rw [← getElem?_bytes, reverse, List.getElem?_reverse hlt, hplace, getElem?_bytes]
  exact Option.some.inj hsome

/-- Least significant byte first, the byte at place `i` counts `256 ^ i` times. -/
theorem Octets.decode_littleEndian {n : Nat} (o : Octets n) :
    ByteOrder.littleEndian.decode o.bytes = ∑ i : Fin n, (o.get i).toNat * 256 ^ i.val := by
  have hdecode : ByteOrder.littleEndian.decode o.bytes =
      ∑ i : Fin n, (o.reverse.get i).toNat * 256 ^ (n - 1 - i.val) := o.reverse.decode_bigEndian
  rw [hdecode, ← Equiv.sum_comp Fin.revPerm]
  refine Finset.sum_congr rfl fun i _ => ?_
  have hplace : n - 1 - i.rev.val = i.val := by rw [Fin.val_rev]; omega
  rw [Fin.revPerm_apply, get_reverse, hplace]

namespace Balance

/-! ## The balance that bytes hold -/

section

variable (order : ByteOrder) (a : Octets 16)

theorem toNat_ofOctets : (ofOctets order a).toNat = order.decode a.bytes := rfl

theorem toNat_lt (b : Balance) : b.toNat < 2 ^ 128 := b.raw.isLt

/-- Bytes hold the balance of which they are the form. -/
theorem write_ofOctets : (layout order).write (ofOctets order a) = a.bytes :=
  congrArg Octets.bytes ((layout order).encode_decode a)

/-- Read from anywhere, the next sixteen bytes give the balance that they hold. -/
theorem run_read_layout (pos : Nat) (rest : Bytes) :
    (layout order).read.run ⟨pos, a.bytes ++ rest⟩ = (.ok (ofOctets order a), ⟨pos + 16, rest⟩) := by
  have hsize : (layout order).size = 16 := rfl
  have hle : 16 ≤ (a.bytes ++ rest).length := by simp [a.length_eq]
  have hparse := (layout order).parse_append (ofOctets order a) rest
  rw [write_ofOctets] at hparse
  rw [Layout.run_read, hparse, hsize, if_pos hle, Cursor.advance, List.drop_left' a.length_eq]

/-- A number of sixteen bytes is read as the same number of units. -/
theorem run_read_number (pos : Nat) (rest : Bytes) :
    (Read.number 16 order).run ⟨pos, a.bytes ++ rest⟩ =
      (.ok (ofOctets order a).toNat, ⟨pos + 16, rest⟩) := by
  have hle : 16 ≤ (a.bytes ++ rest).length := by simp [a.length_eq]
  rw [Read.number, Read.run_bind, Read.run_octets_of_le hle]
  simp only [List.take_left' a.length_eq, Cursor.advance, List.drop_left' a.length_eq]
  rfl

end

/-- Most significant byte first, the byte at place `i` counts `256 ^ (15 - i)` times. -/
theorem toNat_bigEndian (a : Octets 16) :
    (ofOctets .bigEndian a).toNat = ∑ i : Fin 16, (a.get i).toNat * 256 ^ (15 - i.val) :=
  a.decode_bigEndian

/-- Sixteen bytes hold one balance only. -/
theorem ofOctets_injective (order : ByteOrder) : Function.Injective (ofOctets order) := by
  intro a b h
  refine Octets.ext_bytes ?_
  rw [← write_ofOctets order a, h, write_ofOctets]

/-- Most significant byte first, balances are ordered as their bytes are. -/
theorem bigEndian_lt_iff (a b : Octets 16) :
    ofOctets .bigEndian a < ofOctets .bigEndian b ↔ a.bytes < b.bytes := by
  rw [lt_iff_toNat_lt, toNat_ofOctets, toNat_ofOctets]
  exact Radix.ofBytes_lt_ofBytes (a.length_eq.trans b.length_eq.symm)

/-! ## Distances -/

theorem delta_comm (x y : Balance) : x.delta y = y.delta x := by
  refine toNat_inj ?_
  rw [toNat_delta, toNat_delta]
  omega

/-- Only equal balances are at no distance. -/
theorem toNat_delta_eq_zero {x y : Balance} : (x.delta y).toNat = 0 ↔ x = y := by
  rw [toNat_delta, Int.natAbs_eq_zero, Int.sub_eq_zero, Int.ofNat_inj]
  exact ⟨toNat_inj, congrArg toNat⟩

/-- A way over a third balance is not shorter. -/
theorem toNat_delta_le (x y z : Balance) :
    (x.delta z).toNat ≤ (x.delta y).toNat + (y.delta z).toNat := by
  rw [toNat_delta, toNat_delta, toNat_delta]
  omega

/-! ## Balances as numbers of units -/

/-- Balances are numbers of units below `2 ^ 128`. Most significant byte first, sixteen bytes hold the
sum of the bytes times powers of 256 that fall from left to right; least significant byte first, the
powers rise, so the bytes hold what they hold the other way in the opposite order. No other sixteen
bytes hold the same, reading them from a longer byte string gives the same, and most significant byte
first they are ordered as the balances are.

The distance of two balances is that of the numbers over the integers, which is again a balance. It
does not depend on their order, is zero only between equal balances, and obeys the triangle
inequality. The decimal text of a balance is that of no other one. -/
theorem units_exact :
    (∀ a : Octets 16,
      (ofOctets .bigEndian a).toNat = ∑ i : Fin 16, (a.get i).toNat * 256 ^ (15 - i.val) ∧
      (ofOctets .bigEndian a).toNat < 2 ^ 128 ∧
      (ofOctets .littleEndian a).toNat = ∑ i : Fin 16, (a.get i).toNat * 256 ^ i.val ∧
      ofOctets .littleEndian a = ofOctets .bigEndian a.reverse) ∧
    (∀ order, Function.Injective (ofOctets order)) ∧
    (∀ order (a : Octets 16) pos rest,
      (layout order).read.run ⟨pos, a.bytes ++ rest⟩ =
        (.ok (ofOctets order a), ⟨pos + 16, rest⟩) ∧
      (Read.number 16 order).run ⟨pos, a.bytes ++ rest⟩ =
        (.ok (ofOctets order a).toNat, ⟨pos + 16, rest⟩)) ∧
    (∀ a b : Octets 16,
      ofOctets .bigEndian a < ofOctets .bigEndian b ↔ a.bytes < b.bytes) ∧
    (∀ x y : Balance,
      (x.delta y).toNat = ((x.toNat : Int) - y.toNat).natAbs ∧
      (x.delta y).toNat < 2 ^ 128 ∧
      x.delta y = y.delta x ∧
      ((x.delta y).toNat = 0 ↔ x = y)) ∧
    (∀ x y z : Balance, (x.delta z).toNat ≤ (x.delta y).toNat + (y.delta z).toNat) ∧
    Function.Injective text := by
  refine ⟨?_, ofOctets_injective, ?_, bigEndian_lt_iff, ?_, toNat_delta_le, ?_⟩
  · intro a
    exact ⟨toNat_bigEndian a, toNat_lt _, a.decode_littleEndian, rfl⟩
  · intro order a pos rest
    exact ⟨run_read_layout order a pos rest, run_read_number order a pos rest⟩
  · intro x y
    exact ⟨toNat_delta x y, toNat_lt _, delta_comm x y, toNat_delta_eq_zero⟩
  · intro x y h
    exact text_inj.1 h

end Balance

end NanoLedger
