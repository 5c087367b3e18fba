import NanoLedger.Bytes.BitGroups

/-!
# Five-bit symbols

A byte string is written as symbols of an alphabet of 32 characters, five bits to a symbol. Zero
bits in front (`padding`) make the number of bits divisible by five. Reading is exact: the number of
symbols must fit, each must belong to the alphabet, and the padding bits must be zero.
-/

namespace NanoLedger

namespace Symbols

/-- The characters for the values 0 to 31. -/
def alphabet : Vector Char 32 :=
  ⟨"13456789abcdefghijkmnopqrstuwxyz".toList.toArray, by decide⟩

/-- The value of a character. -/
def value? (c : Char) : Option (Fin 32) := alphabet.finIdxOf? c

/-- The character for five bits. -/
def ofBits (bits : List Bool) : Char := alphabet[Bits.value bits % 32]

/-- The five bits of a character of the alphabet. -/
def bits? (c : Char) : Option (List Bool) := (value? c).map fun v => Bits.ofNat 5 v.val

/-- Why a text is not the symbols of a byte string. -/
inductive Fault where
  | badLength
  | badCharacter (c : Char)
  | badPadding
deriving DecidableEq, Repr

/-- The wording of a fault. -/
def Fault.text : Fault → String
  | badLength => "bad length"
  | badCharacter c => "bad character `" ++ String.singleton c ++ "`"
  | badPadding => "bad padding"

/-- The symbols of a byte string after `padding` zero bits. -/
def encode (padding : Nat) (bytes : Bytes) : List Char :=
  let bits := List.replicate padding false ++ Bits.ofBytes bytes
  (Bits.groups 5 (bits.length / 5) bits).map ofBits

/-- The bits of a text, or the first character outside the alphabet. -/
def bitsOf : List Char → Except Fault (List Bool)
  | [] => .ok []
  | c :: cs =>
    match bits? c with
    | some bits => (bitsOf cs).map (bits ++ ·)
    | none => .error (.badCharacter c)

/-- The `n` bytes that a text of symbols stands for. -/
def decode (padding n : Nat) (text : List Char) : Except Fault (Octets n) :=
  if text.length * 5 ≠ padding + 8 * n then .error .badLength
  else do
    let bits ← bitsOf text
    if (bits.take padding).any (· = true) then .error .badPadding
    else
      .ok ⟨(Bits.groups 8 n (bits.drop padding)).map fun g => UInt8.ofNat (Bits.value g), by simp⟩

end Symbols

end NanoLedger
