import NanoLedger.Json
import NanoLedger.Layout

/-!
# Metadata

The table `meta` holds the schema version of the ledger under the number one. Keys and values are
256-bit big-endian numbers; an entry under any other key, or a version that does not fit into 64
bits, is kept as it stands, in hexadecimal digits.
-/

namespace NanoLedger

/-- An entry of the table `meta`. -/
inductive MetaEntry where
  | version (number : UInt64)
  | unrecognised (rawKey rawValue : String)
deriving DecidableEq

namespace MetaEntry

/-- The number under which the version stands. -/
def versionKey : UInt64 := 1

/-- The 32 bytes of the key under which the version stands. -/
def versionKeyBytes : Bytes := ByteOrder.bigEndian.encode 32 versionKey.toNat

/-- A 256-bit number as a word, if it fits. -/
def word? (o : Octets 32) : Option UInt64 :=
  let n := ByteOrder.bigEndian.decode o.bytes
  if n < UInt64.size then some (UInt64.ofNat n) else none

/-- The record of a key and a value. The value is looked at only under the version's key. -/
def decode (key value : Bytes) : Except LedgerError MetaEntry := do
  let k ← (Layout.octets 32).parse key
  if word? k = some versionKey then
    let v ← (Layout.octets 32).parse value
    match word? v with
    | some n => return .version n
    | none => return .unrecognised (Hex.encode key) (Hex.encode value)
  else return .unrecognised (Hex.encode key) (Hex.encode value)

/-- The record as JSON. -/
def json : MetaEntry → Json
  | version v => .object [("key", .text "version"), ("version", .number v.toNat)]
  | unrecognised rawKey rawValue => .object
    [("key", .text "unrecognised"), ("raw_key", .text rawKey), ("raw_value", .text rawValue)]

end MetaEntry

end NanoLedger
