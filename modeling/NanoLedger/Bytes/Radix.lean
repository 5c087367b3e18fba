import NanoLedger.Bytes.Basic

/-!
# Numbers written in base 256

A number field holds its base-256 digits, most significant first (big-endian) or last
(little-endian). `Radix.ofBytes` and `Radix.toBytes` are inverse to each other between the byte
strings of length `w` and the numbers below `256 ^ w`, its capacity (`Radix.ofBytes_toBytes`,
`Radix.toBytes_ofBytes`), so a field of either order loses nothing.
-/

namespace NanoLedger

namespace Radix

/-- How many byte strings of a width there are. -/
def capacity (width : Nat) : Nat := Nat.pow 256 width

theorem capacity_succ (w : Nat) : capacity (w + 1) = capacity w * 256 := rfl

theorem capacity_add (v w : Nat) : capacity (v + w) = capacity v * capacity w := Nat.pow_add 256 v w

theorem capacity_pos (w : Nat) : 0 < capacity w := Nat.pow_pos (by decide)

/-- The number with the given base-256 digits, most significant first. -/
def ofBytes : Bytes → Nat
  | [] => 0
  | b :: bs => b.toNat * capacity bs.length + ofBytes bs

/-- The `width` base-256 digits of a number, most significant first. -/
def toBytes : Nat → Nat → Bytes
  | 0, _ => []
  | w + 1, n => UInt8.ofNat (n / capacity w) :: toBytes w (n % capacity w)

@[simp] theorem length_toBytes (w n : Nat) : (toBytes w n).length = w := by
  induction w generalizing n with
  | zero => rfl
  | succ w ih => simp [toBytes, ih]

theorem ofBytes_lt (bs : Bytes) : ofBytes bs < capacity bs.length := by
  induction bs with
  | nil => decide
  | cons b bs ih =>
    have hb : b.toNat + 1 ≤ 256 := b.toNat_lt
    have := Nat.mul_le_mul_right (capacity bs.length) hb
    rw [Nat.add_mul, Nat.one_mul] at this
    simp only [ofBytes, List.length_cons, capacity_succ]
    omega

/-- The digits in front count as many times as there are numbers of the digits behind them. -/
theorem ofBytes_append (bs cs : Bytes) :
    ofBytes (bs ++ cs) = ofBytes bs * capacity cs.length + ofBytes cs := by
  induction bs with
  | nil => rw [List.nil_append, ofBytes, Nat.zero_mul, Nat.zero_add]
  | cons b bs ih =>
    rw [List.cons_append, ofBytes, ofBytes, ih, List.length_append, capacity_add, Nat.add_mul,
      Nat.mul_assoc, Nat.add_assoc]

theorem ofBytes_eq_zero_iff {bs : Bytes} : ofBytes bs = 0 ↔ ∀ b ∈ bs, b = 0 := by
  induction bs with
  | nil => exact iff_of_true rfl nofun
  | cons b bs ih =>
    have hzero : b.toNat = 0 ↔ b = 0 := UInt8.toNat_inj (b := 0)
    have hpos := capacity_pos bs.length
    rw [ofBytes, Nat.add_eq_zero_iff, ih, List.forall_mem_cons, ← hzero, Nat.mul_eq_zero]
    simp [Nat.ne_of_gt hpos]

theorem ofBytes_toBytes (w : Nat) : ∀ n, n < capacity w → ofBytes (toBytes w n) = n := by
  induction w with
  | zero => intro n h; simp [capacity] at h; simp [toBytes, ofBytes, h]
  | succ w ih =>
    intro n h
    have hpos := capacity_pos w
    have hq : n / capacity w < 256 := by
      rw [Nat.div_lt_iff_lt_mul hpos]; rw [capacity_succ] at h; omega
    simp only [toBytes, ofBytes, length_toBytes, UInt8.toNat_ofNat']
    rw [Nat.mod_eq_of_lt hq, ih _ (Nat.mod_lt _ hpos), Nat.mul_comm, Nat.div_add_mod]

theorem toBytes_ofBytes (bs : Bytes) : toBytes bs.length (ofBytes bs) = bs := by
  induction bs with
  | nil => rfl
  | cons b bs ih =>
    have hlt := ofBytes_lt bs
    have hpos := capacity_pos bs.length
    have hdiv : (b.toNat * capacity bs.length + ofBytes bs) / capacity bs.length = b.toNat := by
      rw [Nat.mul_comm, Nat.mul_add_div hpos, Nat.div_eq_of_lt hlt, Nat.add_zero]
    have hmod : (b.toNat * capacity bs.length + ofBytes bs) % capacity bs.length = ofBytes bs := by
      rw [Nat.mul_comm, Nat.mul_add_mod, Nat.mod_eq_of_lt hlt]
    simp only [List.length_cons, ofBytes, toBytes, hdiv, hmod, ih]
    simp

end Radix

/-- The order in which the digits of a number field are written. -/
inductive ByteOrder where
  | bigEndian
  | littleEndian
deriving DecidableEq, Repr

namespace ByteOrder

/-- The bytes in the order of the field, turned into most significant first; and back. -/
def arrange : ByteOrder → Bytes → Bytes
  | bigEndian, bs => bs
  | littleEndian, bs => bs.reverse

@[simp] theorem length_arrange (o : ByteOrder) (bs : Bytes) :
    (o.arrange bs).length = bs.length := by
  cases o <;> simp [arrange]

@[simp] theorem arrange_arrange (o : ByteOrder) (bs : Bytes) : o.arrange (o.arrange bs) = bs := by
  cases o <;> simp [arrange]

/-- The number a field holds. -/
def decode (o : ByteOrder) (bs : Bytes) : Nat := Radix.ofBytes (o.arrange bs)

/-- The field of `width` bytes that holds a number. -/
def encode (o : ByteOrder) (width n : Nat) : Bytes := o.arrange (Radix.toBytes width n)

@[simp] theorem length_encode (o : ByteOrder) (width n : Nat) :
    (o.encode width n).length = width := by
  simp [encode]

theorem decode_lt (o : ByteOrder) (bs : Bytes) : o.decode bs < Radix.capacity bs.length := by
  simpa [decode] using Radix.ofBytes_lt (o.arrange bs)

theorem decode_encode (o : ByteOrder) {width n : Nat} (h : n < Radix.capacity width) :
    o.decode (o.encode width n) = n := by
  simp [decode, encode, Radix.ofBytes_toBytes _ _ h]

theorem encode_decode (o : ByteOrder) (bs : Bytes) : o.encode bs.length (o.decode bs) = bs := by
  have := Radix.toBytes_ofBytes (o.arrange bs)
  rw [length_arrange] at this
  simp [decode, encode, this]

end ByteOrder

end NanoLedger
