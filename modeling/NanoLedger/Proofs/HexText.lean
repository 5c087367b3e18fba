import NanoLedger.Identifier
import NanoLedger.Proofs.RecordText
import NanoLedger.Proofs.TextBytes

/-!
# Hexadecimal texts and what they show

A text shows a byte string if its upper-case form is the one that is written for the byte string.
These are exactly the texts that are read as that byte string (`Hex.decode_eq_ok`), and a text is
read at all if its bytes are digits and even in number (`Hex.exists_decode_eq_ok`). For a field of
fixed length the number of digits is fixed too (`Hex.decodeOctets_eq_ok`). Identifiers are fields of
that kind, so an identifier is read from its own text and shown in the upper-case form of the text
from which it was read (`Identifier.ofText_eq_ok`).

The digits are read from the bytes of a text. Texts whose bytes are digits consist of ASCII
characters (`Text.ascii_of_utf8`), so it makes no difference that only there a byte is a character.
-/

namespace NanoLedger

namespace Hex

/-! ## Digits -/

/-- The digits, in upper and in lower case. -/
def digits : List Char := "0123456789ABCDEFabcdef".toList

/-- Whether a byte of a text is a digit. -/
def IsDigit (b : UInt8) : Prop := b ∈ digits.map Char.toUInt8

theorem exists_value?_iff (b : UInt8) : (∃ v, value? b = some v) ↔ IsDigit b := by
  have hall : ∀ n : Fin 256, (value? (UInt8.ofNat n)).isSome = true ↔
      UInt8.ofNat n ∈ digits.map Char.toUInt8 := by decide +kernel
  have := hall ⟨b.toNat, b.toNat_lt⟩
  rw [UInt8.ofNat_toNat] at this
  rw [← Option.isSome_iff_exists, this, IsDigit]

/-- A digit shows the number of which its upper-case form is the digit. -/
theorem toUpper_of_value? {c : Char} (hc : c.toNat < 128) {v : UInt8}
    (h : value? c.toUInt8 = some v) : v.toNat < 16 ∧ c.toUpper = digit v.toNat := by
  have hall : ∀ n : Fin 128, ∀ v ∈ value? (Char.ofNat n).toUInt8,
      v.toNat < 16 ∧ (Char.ofNat n).toUpper = digit v.toNat := by decide +kernel
  have := hall ⟨c.toNat, hc⟩ v
  rw [Char.ofNat_toNat] at this
  exact this h

theorem value?_of_toUpper {c : Char} (hc : c.toNat < 128) {n : Fin 16}
    (h : c.toUpper = digit n) : value? c.toUInt8 = some (UInt8.ofNat n) := by
  have hall : ∀ m : Fin 128, ∀ n : Fin 16, (Char.ofNat m).toUpper = digit n →
      value? (Char.ofNat m).toUInt8 = some (UInt8.ofNat n) := by decide +kernel
  have := hall ⟨c.toNat, hc⟩ n
  rw [Char.ofNat_toNat] at this
  exact this h

/-- Only characters of ASCII have an upper-case form in ASCII. -/
theorem ascii_of_toUpper {c : Char} (h : c.toUpper.toNat < 128) : c.toNat < 128 := by
  delta Char.toUpper at h
  split at h
  · next hlower => exact Nat.lt_of_le_of_lt (UInt32.le_iff_toNat_le.1 hlower.2) (by decide)
  · exact h

theorem ascii_of_mem_digits : ∀ c ∈ digits, c.toNat < 128 := by
  have hall : digits.all (fun c => c.toNat < 128) = true := by decide +kernel
  simpa using List.all_eq_true.1 hall

/-- The digits are the characters whose upper-case form is written for a number. -/
theorem mem_digits_iff {c : Char} : c ∈ digits ↔ ∃ n : Fin 16, c.toUpper = digit n := by
  have hall : ∀ m : Fin 128, Char.ofNat m ∈ digits ↔
      ∃ n : Fin 16, (Char.ofNat m).toUpper = digit n := by decide +kernel
  have hiff (hc : c.toNat < 128) : c ∈ digits ↔ ∃ n : Fin 16, c.toUpper = digit n := by
    have := hall ⟨c.toNat, hc⟩
    rwa [Char.ofNat_toNat] at this
  constructor
  · intro h
    exact (hiff (ascii_of_mem_digits c h)).1 h
  · rintro ⟨n, hn⟩
    have hdigit : (digit n).toNat < 128 := Nat.lt_succ_of_lt (visible_digit n).2
    exact (hiff (ascii_of_toUpper (hn ▸ hdigit))).2 ⟨n, hn⟩

/-! ## Reading digits -/

/-- Digits are read if they are even in number. -/
theorem exists_decodeFrom_eq_ok (i : Nat) : ∀ bytes : Bytes,
    (∃ k, decodeFrom i bytes = .ok k) ↔ bytes.length % 2 = 0 ∧ ∀ b ∈ bytes, IsDigit b
  | [] => by simp [decodeFrom]
  | [_] => by simp [decodeFrom]
  | hi :: lo :: rest => by
    have hrest := exists_decodeFrom_eq_ok (i + 2) rest
    have hlength : (hi :: lo :: rest).length % 2 = rest.length % 2 := Nat.add_mod_right _ 2
    rw [hlength, List.forall_mem_cons, List.forall_mem_cons, ← exists_value?_iff hi,
      ← exists_value?_iff lo, decodeFrom]
    cases value? hi with
    | none => simp
    | some h =>
      cases value? lo with
      | none => simp
      | some l =>
        simp only [Option.some.injEq, exists_eq', true_and, ← hrest]
        cases decodeFrom (i + 2) rest <;> simp [Except.map]

theorem toNat_join {h l : UInt8} (hh : h.toNat < 16) (hl : l.toNat < 16) :
    (h * 16 + l).toNat = 16 * h.toNat + l.toNat := by
  rw [UInt8.toNat_add, UInt8.toNat_mul, show (16 : UInt8).toNat = 16 from rfl]
  omega

/-- Two characters show the byte for which their upper-case forms are written. -/
theorem pair_toUpper {c d : Char} (hc : c.toNat < 128) (hd : d.toNat < 128) {b : UInt8} :
    [c.toUpper, d.toUpper] = pair b ↔
      ∃ h l, value? c.toUInt8 = some h ∧ value? d.toUInt8 = some l ∧ h * 16 + l = b := by
  constructor
  · intro hpair
    obtain ⟨hi, lo, hb, hdigits⟩ := exists_digits b
    rw [hdigits, List.cons.injEq, List.cons.injEq] at hpair
    refine ⟨_, _, value?_of_toUpper hc hpair.1, value?_of_toUpper hd hpair.2.1, ?_⟩
    have htoNat (n : Fin 16) : (UInt8.ofNat n).toNat = n :=
      UInt8.toNat_ofNat_of_lt' (Nat.lt_trans n.isLt (by decide))
    have hhi := htoNat hi
    have hlo := htoNat lo
    rw [← UInt8.toNat_inj, toNat_join (by omega) (by omega), hhi, hlo, hb]
  · rintro ⟨h, l, hvalue, hvalue', rfl⟩
    obtain ⟨hh, hcu⟩ := toUpper_of_value? hc hvalue
    obtain ⟨hl, hdu⟩ := toUpper_of_value? hd hvalue'
    have hdiv : (16 * h.toNat + l.toNat) / 16 = h.toNat := by omega
    have hmod : (16 * h.toNat + l.toNat) % 16 = l.toNat := by omega
    rw [pair, toNat_join hh hl, hdiv, hmod, hcu, hdu]

/-- A text of ASCII is read as the byte string for which its upper-case form is written. -/
theorem decodeFrom_eq_ok (i : Nat) : ∀ (cs : List Char) (k : Bytes), (∀ c ∈ cs, c.toNat < 128) →
    (decodeFrom i (cs.map Char.toUInt8) = .ok k ↔ cs.map Char.toUpper = k.flatMap pair)
  | [], k, _ => by cases k <;> simp [decodeFrom, pair]
  | [c], k, _ => by cases k <;> simp [decodeFrom, pair]
  | c :: d :: cs, [], _ => by
    rw [List.map_cons, List.map_cons, decodeFrom]
    cases value? c.toUInt8 <;> cases value? d.toUInt8 <;>
      cases decodeFrom (i + 2) (cs.map Char.toUInt8) <;> simp [Except.map]
  | c :: d :: cs, b :: bs, h => by
    have hcs := decodeFrom_eq_ok (i + 2) cs bs fun c' hc' => h c' (.tail _ (.tail _ hc'))
    have hpair := pair_toUpper (h c (.head _)) (h d (.tail _ (.head _))) (b := b)
    have hsplit : (c :: d :: cs).map Char.toUpper = (b :: bs).flatMap pair ↔
        [c.toUpper, d.toUpper] = pair b ∧ cs.map Char.toUpper = bs.flatMap pair := by
      simp [pair, and_assoc]
    rw [hsplit, hpair, ← hcs, List.map_cons, List.map_cons, decodeFrom]
    cases value? c.toUInt8 <;> cases value? d.toUInt8 <;>
      cases decodeFrom (i + 2) (cs.map Char.toUInt8) <;> simp [Except.map]

theorem ascii_of_isDigit {b : UInt8} (h : IsDigit b) : b.toNat < 128 := by
  obtain ⟨c, hc, rfl⟩ := List.mem_map.1 h
  exact Nat.lt_of_le_of_lt (Nat.mod_le _ _) (ascii_of_mem_digits c hc)

theorem toUpper_eq_encode_iff {text : String} {k : Bytes} :
    text.toUpper = encode k ↔ text.toList.map Char.toUpper = k.flatMap pair := by
  rw [← String.toList_inj, String.toUpper, String.toList_map, encode, String.toList_ofList]

/-- A text that shows a byte string consists of digits. -/
theorem mem_digits_of_toUpper {text : String} {k : Bytes} (h : text.toUpper = encode k) :
    ∀ c ∈ text.toList, c ∈ digits := by
  intro c hc
  have hupper : c.toUpper ∈ k.flatMap pair := by
    rw [← toUpper_eq_encode_iff.1 h]
    exact List.mem_map_of_mem hc
  obtain ⟨b, -, hb⟩ := List.mem_flatMap.1 hupper
  obtain ⟨hi, lo, -, hpair⟩ := exists_digits b
  rw [hpair, List.mem_cons, List.mem_singleton] at hb
  exact mem_digits_iff.2 (hb.elim (⟨hi, ·⟩) (⟨lo, ·⟩))

theorem ascii_of_toUpper_eq_encode {text : String} {k : Bytes} (h : text.toUpper = encode k) :
    ∀ c ∈ text.toList, c.toNat < 128 := fun c hc =>
  ascii_of_mem_digits c (mem_digits_of_toUpper h c hc)

theorem length_flatMap_pair (k : Bytes) : (k.flatMap pair).length = 2 * k.length := by
  induction k with
  | nil => rfl
  | cons b k ih =>
    rw [List.flatMap_cons, List.length_append, ih, List.length_cons, Nat.mul_succ, Nat.add_comm]
    rfl

/-- A text that shows a byte string has two characters for each byte. -/
theorem length_of_toUpper_eq_encode {text : String} {k : Bytes} (h : text.toUpper = encode k) :
    text.toList.length = 2 * k.length := by
  rw [← length_flatMap_pair, ← toUpper_eq_encode_iff.1 h, List.length_map]

/-- Reading the bytes of a text gives the byte string that the text shows. -/
theorem decodeFrom_utf8_eq_ok {text : String} {k : Bytes} :
    decodeFrom 0 (Text.utf8 text) = .ok k ↔ text.toUpper = encode k := by
  have hascii (h : ∀ c ∈ text.toList, c.toNat < 128) :
      decodeFrom 0 (Text.utf8 text) = .ok k ↔ text.toUpper = encode k := by
    rw [Text.utf8_of_ascii h, decodeFrom_eq_ok 0 _ k h, toUpper_eq_encode_iff]
  constructor
  · intro h
    have hdigits := ((exists_decodeFrom_eq_ok 0 _).1 ⟨k, h⟩).2
    exact (hascii (Text.ascii_of_utf8 fun b hb => ascii_of_isDigit (hdigits b hb))).1 h
  · intro h
    exact (hascii (ascii_of_toUpper_eq_encode h)).2 h

/-- A text is read as the byte string that it shows. -/
theorem decode_eq_ok {text : String} {k : Bytes} :
    decode text = .ok k ↔ text.toUpper = encode k := by
  rw [decode, Text.toList_toUTF8, ← decodeFrom_utf8_eq_ok]
  split
  · next hodd =>
    refine iff_of_false nofun fun hk => hodd ?_
    exact ((exists_decodeFrom_eq_ok 0 _).1 ⟨k, hk⟩).1
  · rfl

/-- A text is read if its bytes are digits and even in number. -/
theorem exists_decode_eq_ok {text : String} :
    (∃ k, decode text = .ok k) ↔
      (Text.utf8 text).length % 2 = 0 ∧ ∀ b ∈ Text.utf8 text, IsDigit b := by
  simp only [decode_eq_ok, ← decodeFrom_utf8_eq_ok, exists_decodeFrom_eq_ok]

theorem ofBytes?_eq_some {n : Nat} {bytes : Bytes} {o : Octets n} :
    Octets.ofBytes? n bytes = some o ↔ bytes = o.bytes := by
  rw [Octets.ofBytes?]
  constructor
  · intro h
    split at h
    · cases h
      rfl
    · cases h
  · rintro rfl
    exact dif_pos o.length_eq

/-- A field of fixed length is read from the texts that show it. -/
theorem decodeOctets_eq_ok {n : Nat} {text : String} {o : Octets n} :
    decodeOctets n text = .ok o ↔ text.toUpper = encode o.bytes := by
  rw [decodeOctets, Text.toList_toUTF8, ← decodeFrom_utf8_eq_ok]
  constructor
  · intro h
    split at h
    · cases h
    split at h
    · cases h
    cases hk : decodeFrom 0 (Text.utf8 text) with
    | error e =>
      rw [hk] at h
      cases h
    | ok k =>
      simp only [hk, bind, Except.bind] at h
      split at h
      · next o' ho' =>
        cases h
        rw [ofBytes?_eq_some.1 ho']
      · cases h
  · intro h
    have hshow := decodeFrom_utf8_eq_ok.1 h
    have hlength : (Text.utf8 text).length = 2 * n := by
      rw [Text.length_utf8 (ascii_of_toUpper_eq_encode hshow), length_of_toUpper_eq_encode hshow,
        o.length_eq]
    rw [if_neg (by omega), if_neg (by omega), h]
    simp only [bind, Except.bind, ofBytes?_eq_some.2 rfl]

/-- A text shows a field of fixed length if it has as many digits. -/
theorem exists_octets_iff {n : Nat} {text : String} :
    (∃ o : Octets n, text.toUpper = encode o.bytes) ↔
      text.length = 2 * n ∧ ∀ c ∈ text.toList, c ∈ digits := by
  rw [← String.length_toList]
  constructor
  · rintro ⟨o, ho⟩
    exact ⟨by rw [length_of_toUpper_eq_encode ho, o.length_eq], mem_digits_of_toUpper ho⟩
  · rintro ⟨hlength, hdigits⟩
    have hascii : ∀ c ∈ text.toList, c.toNat < 128 := fun c hc =>
      ascii_of_mem_digits c (hdigits c hc)
    obtain ⟨k, hk⟩ : ∃ k, decode text = .ok k := by
      rw [exists_decode_eq_ok, Text.utf8_of_ascii hascii, List.length_map, hlength]
      refine ⟨Nat.mul_mod_right 2 n, List.forall_mem_map.2 fun c hc => ?_⟩
      exact List.mem_map_of_mem (hdigits c hc)
    have hshow := decode_eq_ok.1 hk
    have hlen : k.length = n := by
      have := length_of_toUpper_eq_encode hshow
      omega
    exact ⟨⟨k, hlen⟩, hshow⟩

/-- What is written for a byte string is in upper case already. -/
theorem toUpper_encode (k : Bytes) : (encode k).toUpper = encode k := by
  have hdigit : ∀ n : Fin 16, (digit n).toUpper = digit n := by decide
  have hpair (b : UInt8) : (pair b).map Char.toUpper = pair b := by
    obtain ⟨hi, lo, -, hpair⟩ := exists_digits b
    rw [hpair, List.map_cons, List.map_singleton, hdigit, hdigit]
  rw [toUpper_eq_encode_iff, encode, String.toList_ofList, List.map_flatMap]
  simp only [hpair]

end Hex

/-! ## Identifiers -/

/-- An identifier is read from exactly the texts whose upper-case form is its own text. -/
theorem Identifier.ofText_eq_ok {role : Role} {text : String} {x : Identifier role} :
    ofText role text = .ok x ↔ text.toUpper = x.text := by
  have hoctets : ofText role text = .ok x ↔ Hex.decodeOctets role.size text = .ok x.octets := by
    rw [ofText]
    cases x
    cases Hex.decodeOctets role.size text <;> simp
  rw [hoctets, Hex.decodeOctets_eq_ok]
  rfl

end NanoLedger
