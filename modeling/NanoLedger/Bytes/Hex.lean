import NanoLedger.Bytes.Basic

/-!
# Hexadecimal text

Byte strings are shown as hexadecimal digits, in upper case, and read from digits of either case.
A text is read by its UTF-8 bytes, two to a byte: an odd number of them is refused first, then, for
a field of fixed length, a wrong number, and then the first byte that is no digit.
-/

namespace NanoLedger

namespace Hex

/-- Why a text is not the hexadecimal form of a byte string. -/
inductive Fault where
  /-- an odd number of digits -/
  | oddLength
  /-- not the number of digits that the field has -/
  | wrongLength
  /-- a byte of the text that is no digit, and its index -/
  | badDigit (byte : UInt8) (position : Nat)
deriving DecidableEq, Repr

/-- The upper-case digit of a number below 16. -/
def digit (n : Nat) : Char :=
  if n < 10 then Char.ofNat ('0'.toNat + n) else Char.ofNat ('A'.toNat + (n - 10))

/-- The two digits of a byte. -/
def pair (b : UInt8) : List Char := [digit (b.toNat / 16), digit (b.toNat % 16)]

/-- The upper-case digits of a byte string. -/
def encode (bytes : Bytes) : String := String.ofList (bytes.flatMap pair)

/-- The value of a digit, given as a byte of the text. -/
def value? (c : UInt8) : Option UInt8 :=
  if 48 ≤ c ∧ c ≤ 57 then some (c - 48)
  else if 65 ≤ c ∧ c ≤ 70 then some (c - 55)
  else if 97 ≤ c ∧ c ≤ 102 then some (c - 87)
  else none

/-- Read the digits of a text two by two; `position` is the index of the first of them. -/
def decodeFrom (position : Nat) : Bytes → Except Fault Bytes
  | [] => .ok []
  | [_] => .error .oddLength
  | hi :: lo :: rest =>
    match value? hi, value? lo with
    | none, _ => .error (.badDigit hi position)
    | some _, none => .error (.badDigit lo (position + 1))
    | some h, some l => (decodeFrom (position + 2) rest).map ((h * 16 + l) :: ·)

/-- The byte string that a text shows. -/
def decode (text : String) : Except Fault Bytes :=
  let bytes := text.toUTF8.toList
  if bytes.length % 2 ≠ 0 then .error .oddLength else decodeFrom 0 bytes

/-- The `n` bytes that a text shows. -/
def decodeOctets (n : Nat) (text : String) : Except Fault (Octets n) :=
  let bytes := text.toUTF8.toList
  if bytes.length % 2 ≠ 0 then .error .oddLength
  else if bytes.length / 2 ≠ n then .error .wrongLength
  else do
    match Octets.ofBytes? n (← decodeFrom 0 bytes) with
    | some o => .ok o
    | none => .error .wrongLength

/-- The lower-case digits of a number, without leading zeros. -/
def lowerDigits (n : Nat) : String := String.ofList (Nat.toDigits 16 n)

/-- A byte that is no digit, as the character of that code between quotes. Quotes, backslashes and
the usual control characters have an escape of their own, other unprintable ones their code. -/
def quoted (b : UInt8) : String :=
  let shown :=
    if b = 0 then "\\0"
    else if b = 9 then "\\t"
    else if b = 10 then "\\n"
    else if b = 13 then "\\r"
    else if b = 39 then "\\'"
    else if b = 92 then "\\\\"
    else if b < 32 ∨ (127 ≤ b ∧ b ≤ 160) ∨ b = 173 then
      "\\u\x7b" ++ lowerDigits b.toNat ++ "\x7d"
    else String.singleton (Char.ofNat b.toNat)
  "'" ++ shown ++ "'"

/-- The wording of a fault. -/
def Fault.text : Fault → String
  | oddLength => "Odd number of digits"
  | wrongLength => "Invalid string length"
  | badDigit b i => "Invalid character " ++ quoted b ++ " at position " ++ toString i

end Hex

end NanoLedger
