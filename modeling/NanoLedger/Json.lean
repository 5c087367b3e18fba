/-!
# JSON text

The values that records are shown as, and their compact text: no blanks, fields in their given
order, numbers in decimal.
-/

namespace NanoLedger

/-- A JSON value whose numbers are natural. -/
inductive Json where
  | null
  | bool (b : Bool)
  | number (n : Nat)
  | text (s : String)
  | list (items : List Json)
  | object (fields : List (String × Json))

namespace Json

/-- An optional value, absent ones being null. -/
def optional {α : Type} (f : α → Json) : Option α → Json
  | some a => f a
  | none => null

/-- A character inside a JSON string. -/
def escape (c : Char) : List Char :=
  if c = '"' then ['\\', '"']
  else if c = '\\' then ['\\', '\\']
  else if c = '\n' then ['\\', 'n']
  else if c = '\r' then ['\\', 'r']
  else if c = '\t' then ['\\', 't']
  else if c.toNat = 8 then ['\\', 'b']
  else if c.toNat = 12 then ['\\', 'f']
  else if c.toNat < 32 then
    ['\\', 'u', '0', '0', Nat.digitChar (c.toNat / 16), Nat.digitChar (c.toNat % 16)]
  else [c]

/-- A string in quotes. -/
def quote (s : String) : List Char := '"' :: s.toList.flatMap escape ++ ['"']

mutual

/-- The characters of a value. -/
def chars : Json → List Char
  | null => "null".toList
  | bool true => "true".toList
  | bool false => "false".toList
  | number n => (toString n).toList
  | text s => quote s
  | list [] => ['[', ']']
  | list (x :: xs) => '[' :: chars x ++ itemChars xs
  | object [] => ['\x7b', '\x7d']
  | object ((name, x) :: fields) => '\x7b' :: quote name ++ ':' :: chars x ++ fieldChars fields

/-- The items after the first one, and the closing bracket. -/
def itemChars : List Json → List Char
  | [] => [']']
  | x :: xs => ',' :: chars x ++ itemChars xs

/-- The fields after the first one, and the closing brace. -/
def fieldChars : List (String × Json) → List Char
  | [] => ['\x7d']
  | (name, x) :: fields => ',' :: quote name ++ ':' :: chars x ++ fieldChars fields

end

/-- The compact text of a value. -/
def render (x : Json) : String := String.ofList x.chars

end Json

end NanoLedger
