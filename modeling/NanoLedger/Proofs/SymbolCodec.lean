import Mathlib.Algebra.Group.Nat.Defs
import NanoLedger.Address.Symbols

/-!
# The five-bit symbols of a byte string

Bytes are written as symbols through their bits: eight bits to a byte, five to a symbol, the same
list of bits cut in two ways. What carries this module is that a list of bits is known from its
groups of one width (`Bits.flatten_groups`, `Bits.groups_flatten`) and that a group is known from
its value (`Bits.ofNat_value`, `Bits.value_ofNat`).

`Symbols.bitsOf_eq_ok` tells which texts are symbols at all and what their bits are. From it comes
that the codec is exact, whatever the padding: a text is read as some bytes exactly if it is what is
written for them (`Symbols.decode_eq_ok_iff`).
-/

namespace NanoLedger

namespace Bits

/-! ## Groups of bits and their values -/

theorem foldl_value (n : Nat) (bits : List Bool) :
    bits.foldl (fun n b => 2 * n + b.toNat) n = n * 2 ^ bits.length + value bits := by
  induction bits generalizing n with
  | nil => simp [value]
  | cons b bits ih =>
    rw [value, List.foldl_cons, List.foldl_cons, ih, ih (2 * 0 + b.toNat), List.length_cons,
      Nat.pow_succ, Nat.mul_zero, Nat.zero_add, Nat.add_mul, Nat.add_assoc,
      Nat.mul_comm (2 ^ bits.length), ← Nat.mul_assoc, Nat.mul_comm 2 n]

/-- The first bit counts as many times as the bits behind it have values. -/
theorem value_cons (b : Bool) (bits : List Bool) :
    value (b :: bits) = b.toNat * 2 ^ bits.length + value bits := by
  rw [value, List.foldl_cons, foldl_value, Nat.mul_zero, Nat.zero_add]

theorem value_lt (bits : List Bool) : value bits < 2 ^ bits.length := by
  induction bits with
  | nil => exact Nat.one_pos
  | cons b bits ih =>
    have hb : b.toNat * 2 ^ bits.length ≤ 1 * 2 ^ bits.length :=
      Nat.mul_le_mul_right _ (Bool.toNat_le b)
    rw [value_cons, List.length_cons, Nat.pow_succ]
    omega

theorem value_lt_of_length {width : Nat} {bits : List Bool} (h : bits.length = width) :
    value bits < 2 ^ width :=
  h ▸ value_lt bits

/-- The low bits of a number do not depend on what stands above them. -/
theorem ofNat_mod (width n : Nat) {above : Nat} (h : width ≤ above) :
    ofNat width (n % 2 ^ above) = ofNat width n := by
  induction width with
  | zero => rfl
  | succ w ih =>
    have hw : w < above := h
    rw [ofNat, ofNat, ih (Nat.le_of_lt hw), Nat.testBit_mod_two_pow, decide_eq_true hw,
      Bool.true_and]

theorem value_ofNat (width n : Nat) : value (ofNat width n) = n % 2 ^ width := by
  induction width with
  | zero => rw [Nat.pow_zero, Nat.mod_one]; rfl
  | succ w ih =>
    rw [ofNat, value_cons, length_ofNat, ih, Nat.toNat_testBit, Nat.mod_pow_succ, Nat.mul_comm,
      Nat.add_comm]

/-- Bits are the low bits of their value. -/
theorem ofNat_value {width : Nat} {bits : List Bool} (h : bits.length = width) :
    ofNat width (value bits) = bits := by
  subst h
  induction bits with
  | nil => rfl
  | cons b bits ih =>
    have hlt := value_lt bits
    have hmod : value (b :: bits) % 2 ^ bits.length = value bits := by
      rw [value_cons, Nat.mul_comm, Nat.mul_add_mod, Nat.mod_eq_of_lt hlt]
    have hdiv : value (b :: bits) / 2 ^ bits.length = b.toNat := by
      rw [value_cons, Nat.mul_comm, Nat.mul_add_div (Nat.two_pow_pos _), Nat.div_eq_of_lt hlt,
        Nat.add_zero]
    have hbit : (value (b :: bits)).testBit bits.length = b := by
      rw [Nat.testBit_eq_decide_div_mod_eq, hdiv]
      cases b <;> rfl
    rw [List.length_cons, ofNat, hbit, ← ofNat_mod _ _ (Nat.le_refl _), hmod, ih]

/-- Groups, put together again, are the bits from which they were cut. -/
theorem flatten_groups (width count : Nat) (bits : List Bool) :
    (groups width count bits).flatten = bits.take (width * count) := by
  induction count generalizing bits with
  | zero => simp [groups]
  | succ count ih =>
    rw [groups, List.flatten_cons, ih, ← List.take_add, Nat.mul_succ, Nat.add_comm]

theorem length_of_mem_groups {width count : Nat} {bits g : List Bool}
    (hbits : width * count ≤ bits.length) (hg : g ∈ groups width count bits) :
    g.length = width := by
  induction count generalizing bits with
  | zero => cases hg
  | succ count ih =>
    rw [Nat.mul_succ] at hbits
    rcases List.mem_cons.1 hg with rfl | hg
    · rw [List.length_take]
      omega
    · exact ih (by rw [List.length_drop]; omega) hg

/-- Cutting bits that were put together from groups of one width gives these groups. -/
theorem groups_flatten {width : Nat} {gs : List (List Bool)} (h : ∀ g ∈ gs, g.length = width) :
    groups width gs.length gs.flatten = gs := by
  induction gs with
  | nil => rfl
  | cons g gs ih =>
    have hg : g.length = width := h g (.head _)
    rw [List.length_cons, groups, List.flatten_cons, List.take_left' hg, List.drop_left' hg,
      ih fun g' hg' => h g' (.tail _ hg')]

/-! ## Bytes -/

/-- The groups of eight bits of a byte string are its bytes. -/
theorem groups_ofBytes (bytes : Bytes) :
    (groups 8 bytes.length (ofBytes bytes)).map (fun g => UInt8.ofNat (value g)) = bytes := by
  have hgroups : groups 8 bytes.length (ofBytes bytes) = bytes.map fun b => ofNat 8 b.toNat := by
    have hlen : ∀ g ∈ bytes.map fun b => ofNat 8 b.toNat, g.length = 8 := by simp
    have h := groups_flatten hlen
    rwa [List.length_map, ← List.flatMap_def] at h
  have hbyte : ∀ b : UInt8, UInt8.ofNat (value (ofNat 8 b.toNat)) = b := by
    intro b
    rw [value_ofNat, Nat.mod_eq_of_lt b.toNat_lt, UInt8.ofNat_toNat]
  rw [hgroups, List.map_map]
  simp [Function.comp_def, hbyte]

@[simp] theorem length_ofBytes (bytes : Bytes) : (ofBytes bytes).length = 8 * bytes.length := by
  induction bytes with
  | nil => rfl
  | cons b bytes ih =>
    have hcons : ofBytes (b :: bytes) = ofNat 8 b.toNat ++ ofBytes bytes := rfl
    rw [hcons, List.length_append, ih, length_ofNat, List.length_cons]
    omega

/-- The bits of the bytes that groups of eight bits stand for are these groups. -/
theorem ofBytes_groups {n : Nat} {bits : List Bool} (h : bits.length = 8 * n) :
    ofBytes ((groups 8 n bits).map fun g => UInt8.ofNat (value g)) = bits := by
  have hgroup : ∀ g ∈ groups 8 n bits, ofNat 8 (UInt8.ofNat (value g)).toNat = g := by
    intro g hg
    have hlen : g.length = 8 := length_of_mem_groups (Nat.le_of_eq h.symm) hg
    rw [UInt8.toNat_ofNat', Nat.mod_eq_of_lt (value_lt_of_length hlen), ofNat_value hlen]
  rw [ofBytes, List.flatMap_map, List.flatMap_def, List.map_congr_left hgroup, List.map_id',
    flatten_groups, ← h, List.take_length]

end Bits

namespace Symbols

open Bits

/-! ## Characters -/

theorem alphabet_inj : ∀ v w : Fin 32, alphabet[v] = alphabet[w] → v = w := by decide +kernel

theorem alphabet_lt : ∀ v : Fin 32, alphabet[v].toNat < 128 := by decide

/-- A character has a value exactly if it stands at that place of the alphabet. -/
theorem value?_eq_some {c : Char} {v : Fin 32} : value? c = some v ↔ alphabet[v] = c := by
  rw [value?, Vector.finIdxOf?, Option.map_eq_some_iff]
  constructor
  · rintro ⟨i, hi, rfl⟩
    exact (Array.finIdxOf?_eq_some_iff.1 hi).1
  · rintro rfl
    refine ⟨v, Array.finIdxOf?_eq_some_iff.2 ⟨rfl, fun j hj hv => ?_⟩, rfl⟩
    -- no earlier place of the alphabet holds the same character
    exact Fin.ne_of_lt hj (alphabet_inj j v hv)

/-- The bits of a character of the alphabet are the five bits for which it is written. -/
theorem bits?_eq_some {c : Char} {bits : List Bool} :
    bits? c = some bits ↔ bits.length = 5 ∧ ofBits bits = c := by
  rw [bits?, Option.map_eq_some_iff]
  constructor
  · rintro ⟨v, hv, rfl⟩
    have hvalue : value (ofNat 5 v.val) % 32 = v.val := by
      rw [value_ofNat]
      show v.val % 32 % 32 = v.val
      rw [Nat.mod_mod, Nat.mod_eq_of_lt v.isLt]
    refine ⟨length_ofNat 5 _, (value?_eq_some.1 hv) ▸ ?_⟩
    simp only [ofBits, hvalue]
    rfl
  · rintro ⟨hlen, rfl⟩
    have hlt : value bits < 32 := value_lt_of_length hlen
    refine ⟨⟨value bits % 32, Nat.mod_lt _ (by decide)⟩, value?_eq_some.2 rfl, ?_⟩
    show ofNat 5 (value bits % 32) = bits
    rw [Nat.mod_eq_of_lt hlt, ofNat_value hlen]

theorem ofBits_lt (bits : List Bool) : (ofBits bits).toNat < 128 :=
  alphabet_lt ⟨value bits % 32, Nat.mod_lt _ (by decide)⟩

/-! ## Texts -/

/-- A text is symbols exactly if it is written for groups of five bits, and then these are its
bits. -/
theorem bitsOf_eq_ok {text : List Char} {bits : List Bool} :
    bitsOf text = .ok bits ↔
      ∃ gs : List (List Bool), (∀ g ∈ gs, g.length = 5) ∧ text = gs.map ofBits ∧
        bits = gs.flatten := by
  induction text generalizing bits with
  | nil =>
    constructor
    · rintro ⟨⟩
      exact ⟨[], nofun, rfl, rfl⟩
    · rintro ⟨gs, -, hgs, rfl⟩
      rw [List.map_eq_nil_iff.1 hgs.symm]
      rfl
  | cons c cs ih =>
    constructor
    · intro h
      rw [bitsOf] at h
      cases hc : bits? c with
      | none =>
        rw [hc] at h
        cases h
      | some g =>
        cases hcs : bitsOf cs with
        | error e =>
          rw [hc, hcs] at h
          cases h
        | ok rest =>
          rw [hc, hcs] at h
          cases h
          obtain ⟨hlen, rfl⟩ := bits?_eq_some.1 hc
          obtain ⟨gs, hgs, rfl, rfl⟩ := ih.1 hcs
          exact ⟨g :: gs, List.forall_mem_cons.2 ⟨hlen, hgs⟩, rfl, rfl⟩
    · rintro ⟨gs, hgs, htext, rfl⟩
      cases gs with
      | nil => cases htext
      | cons g gs =>
        obtain ⟨rfl, rfl⟩ := List.cons.inj htext
        obtain ⟨hg, hgs⟩ := List.forall_mem_cons.1 hgs
        rw [bitsOf, bits?_eq_some.2 ⟨hg, rfl⟩, ih.2 ⟨gs, hgs, rfl, rfl⟩]
        rfl

theorem length_of_bitsOf {text : List Char} {bits : List Bool} (h : bitsOf text = .ok bits) :
    bits.length = text.length * 5 := by
  obtain ⟨gs, hgs, rfl, rfl⟩ := bitsOf_eq_ok.1 h
  rw [List.length_flatten, List.map_congr_left hgs, List.map_const', List.sum_replicate_nat,
    List.length_map]

section

variable {padding n : Nat}

/-- The bits that are written for a byte string. -/
def paddedBits (padding : Nat) (bytes : Bytes) : List Bool :=
  List.replicate padding false ++ Bits.ofBytes bytes

theorem encode_eq (padding : Nat) (bytes : Bytes) :
    encode padding bytes =
      (groups 5 ((paddedBits padding bytes).length / 5) (paddedBits padding bytes)).map ofBits :=
  rfl

theorem length_paddedBits (padding : Nat) (bytes : Bytes) :
    (paddedBits padding bytes).length = padding + 8 * bytes.length := by
  rw [paddedBits, List.length_append, List.length_replicate, length_ofBytes]

theorem take_paddedBits (padding : Nat) (bytes : Bytes) :
    (paddedBits padding bytes).take padding = List.replicate padding false :=
  List.take_left' List.length_replicate

theorem drop_paddedBits (padding : Nat) (bytes : Bytes) :
    (paddedBits padding bytes).drop padding = Bits.ofBytes bytes :=
  List.drop_left' List.length_replicate

theorem length_encode (padding : Nat) (bytes : Bytes) :
    (encode padding bytes).length = (padding + 8 * bytes.length) / 5 := by
  rw [encode_eq, List.length_map, length_groups, length_paddedBits]

theorem encode_lt {bytes : Bytes} {c : Char} (h : c ∈ encode padding bytes) : c.toNat < 128 := by
  obtain ⟨g, -, rfl⟩ := List.mem_map.1 h
  exact ofBits_lt g

/-- The symbols of a byte string are the texts whose bits are the padding and the bits of the
bytes. -/
theorem bitsOf_eq_paddedBits {text : List Char} {bytes : Bytes} :
    bitsOf text = .ok (paddedBits padding bytes) ↔
      5 ∣ padding + 8 * bytes.length ∧ text = encode padding bytes := by
  rw [← length_paddedBits]
  constructor
  · intro h
    have hlen := length_of_bitsOf h
    obtain ⟨gs, hgs, rfl, hbits⟩ := bitsOf_eq_ok.1 h
    rw [List.length_map] at hlen
    rw [encode_eq, hlen, Nat.mul_div_cancel _ (by decide), hbits, groups_flatten hgs]
    exact ⟨Nat.dvd_mul_left 5 _, rfl⟩
  · rintro ⟨hdvd, rfl⟩
    have hcount := Nat.mul_div_cancel' hdvd
    refine bitsOf_eq_ok.2 ⟨_, fun g hg => ?_, encode_eq padding bytes, ?_⟩
    · exact length_of_mem_groups (Nat.le_of_eq hcount) hg
    · rw [flatten_groups, hcount, List.take_length]

/-- Bits that are zero where the padding is are the padded bits of the bytes behind it. -/
theorem paddedBits_groups {bits : List Bool} (hcount : bits.length = padding + 8 * n)
    (hzero : bits.take padding = List.replicate padding false) :
    paddedBits padding ((groups 8 n (bits.drop padding)).map fun g => UInt8.ofNat (value g)) =
      bits := by
  have hrest : (bits.drop padding).length = 8 * n := by
    rw [List.length_drop]
    omega
  rw [paddedBits, ofBytes_groups hrest, ← hzero, List.take_append_drop]

/-- Reading succeeds exactly for as many symbols as are needed whose bits are the padding and the
bits of the result. -/
theorem decode_eq_ok {text : List Char} {o : Octets n} :
    decode padding n text = .ok o ↔
      text.length * 5 = padding + 8 * n ∧ bitsOf text = .ok (paddedBits padding o.bytes) := by
  constructor
  · intro h
    rw [decode] at h
    split at h
    · cases h
    · next hlen =>
      have hlen : text.length * 5 = padding + 8 * n := Decidable.of_not_not hlen
      cases hbits : bitsOf text with
      | error e =>
        rw [hbits] at h
        cases h
      | ok bits =>
        simp only [hbits, bind, Except.bind] at h
        split at h
        · cases h
        · next hpadding =>
          cases h
          have hcount : bits.length = padding + 8 * n := (length_of_bitsOf hbits).trans hlen
          have hzero : bits.take padding = List.replicate padding false := by
            refine List.eq_replicate_iff.2 ⟨by rw [List.length_take]; omega, fun b hb => ?_⟩
            cases b with
            | false => rfl
            | true => exact absurd (List.any_eq_true.2 ⟨true, hb, rfl⟩) hpadding
          exact ⟨hlen, congrArg Except.ok (paddedBits_groups hcount hzero).symm⟩
  · rintro ⟨hlen, hbits⟩
    obtain ⟨bytes, rfl⟩ := o
    have hpadding : ¬ ((List.replicate padding false).any (· = true) = true) := by simp
    rw [decode, if_neg (fun hne => hne hlen), hbits]
    simp only [bind, Except.bind, take_paddedBits, drop_paddedBits]
    rw [if_neg hpadding]
    exact congrArg Except.ok (Octets.ext_bytes (groups_ofBytes bytes))

/-- The codec is exact: a text is read as some bytes exactly if it is what is written for them. -/
theorem decode_eq_ok_iff {text : List Char} {o : Octets n} :
    decode padding n text = .ok o ↔ 5 ∣ padding + 8 * n ∧ text = encode padding o.bytes := by
  rw [decode_eq_ok, bitsOf_eq_paddedBits, o.length_eq]
  constructor
  · exact fun h => h.2
  · rintro ⟨hdvd, rfl⟩
    rw [length_encode, o.length_eq, Nat.div_mul_cancel hdvd]
    exact ⟨rfl, hdvd, rfl⟩

end

end Symbols

end NanoLedger
