/-!
# Text on a terminal

Some control characters make a terminal act: bell, backspace, form feed, escape, delete, and the
control characters from U+0080 to U+009F. A text that may come from outside is tamed before it is
shown (`Text.tame`): each of them is written as its code. All others stay, tabs and ends of lines
among them.
-/

namespace NanoLedger

namespace Text

/-- Whether a character makes a terminal act. -/
def isSteering (c : Char) : Bool :=
  [0x07, 0x08, 0x0C, 0x1B, 0x7F].contains c.toNat || (0x80 ≤ c.toNat && c.toNat ≤ 0x9F)

/-- The two lower-case hexadecimal digits of a code below 256. -/
def codeDigits (n : Nat) : List Char := [Nat.digitChar (n / 16), Nat.digitChar (n % 16)]

/-- A character, or its code if it makes a terminal act. Codes beyond ASCII stand in braces. -/
def tamed (c : Char) : List Char :=
  if ¬ isSteering c then [c]
  else if c.toNat < 0x80 then ['\\', 'x'] ++ codeDigits c.toNat
  else ['\\', 'u', '\x7b'] ++ codeDigits c.toNat ++ ['\x7d']

/-- A text that makes no terminal act. -/
def tame (text : String) : String := String.ofList (text.toList.flatMap tamed)

end Text

end NanoLedger
