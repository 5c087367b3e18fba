import NanoLedger.Address

/-!
# Hashes, signatures, links and work

Block hashes, signatures and links are byte strings of fixed lengths, shown in upper-case
hexadecimal. They share one type, `Identifier`, whose parameter keeps the three roles apart. The
work of a block is a 64-bit word, shown in sixteen hexadecimal digits.
-/

namespace NanoLedger

/-- What a fixed byte string stands for. -/
inductive Role where
  | blockHash
  | signature
  | link
deriving DecidableEq, Repr

/-- The number of bytes of a role. -/
def Role.size : Role → Nat
  | blockHash => 32
  | signature => 64
  | link => 32

/-- The name of a role. -/
def Role.name : Role → String
  | blockHash => "BlockHash"
  | signature => "Signature"
  | link => "Link"

/-- A byte string in the given role. -/
structure Identifier (role : Role) where
  octets : Octets role.size
deriving DecidableEq

/-- The hash of a block. -/
abbrev BlockHash := Identifier .blockHash

/-- The signature of a block. -/
abbrev Signature := Identifier .signature

/-- The link of a state block: an account or a block hash, as its subtype demands. -/
abbrev Link := Identifier .link

namespace Identifier

variable {role : Role}

/-- The bytes. -/
def bytes (x : Identifier role) : Bytes := x.octets.bytes

/-- The identifier of zeros. -/
def zero (role : Role) : Identifier role := ⟨.zero role.size⟩

/-- The upper-case hexadecimal text. -/
def text (x : Identifier role) : String := Hex.encode x.bytes

/-- The identifier as it is shown to a programmer. -/
def inspect (x : Identifier role) : String := role.name ++ "(" ++ x.text ++ ")"

/-- The identifier that a hexadecimal text of the exact length shows. -/
def ofText (role : Role) (text : String) : Except LedgerError (Identifier role) :=
  match Hex.decodeOctets role.size text with
  | .ok octets => .ok ⟨octets⟩
  | .error fault => .error (.ofHex fault)

/-- The identifier with the given bytes, of which there must be the exact number. -/
def ofBytes (role : Role) (bytes : Bytes) : Except LedgerError (Identifier role) :=
  match Octets.ofBytes? role.size bytes with
  | some octets => .ok ⟨octets⟩
  | none =>
    let context :=
      "expected " ++ toString role.size ++ " bytes, got " ++ toString bytes.length
    .error { cause := .invalidKey, context }

/-- An identifier in a key or a value: its bytes. -/
def layout (role : Role) : Layout (Identifier role) :=
  (Layout.octets role.size).map mk octets (fun _ => rfl) (fun _ => rfl)

@[simp] theorem write_layout (x : Identifier role) : (layout role).write x = x.bytes := rfl

/-- A block hash read as a link. -/
def asLink (h : BlockHash) : Link := ⟨h.octets⟩

/-- A link read as a block hash. -/
def asHash (l : Link) : BlockHash := ⟨l.octets⟩

/-- A link read as an account. -/
def asAccount (l : Link) : Account := ⟨l.octets⟩

end Identifier

/-- The bytes of an account read as a link. -/
def Account.asLink (a : Account) : Link := ⟨a.key⟩

/-- The work of a block. -/
structure Work where
  word : UInt64
deriving DecidableEq

namespace Work

/-- The sixteen upper-case hexadecimal digits of the word. -/
def text (w : Work) : String := Hex.encode (ByteOrder.bigEndian.encode 8 w.word.toNat)

/-- The work as it is shown to a programmer. -/
def inspect (w : Work) : String := "Work(" ++ w.text ++ ")"

/-- The work in a value, in the given byte order. -/
def layout (order : ByteOrder) : Layout Work :=
  (Layout.word64 order).map mk word (fun _ => rfl) (fun _ => rfl)

@[simp] theorem write_layout (order : ByteOrder) (w : Work) :
    (layout order).write w = order.encode 8 w.word.toNat := rfl

end Work

end NanoLedger
