import NanoLedger.Block.Payload
import NanoLedger.Record.Schema

/-!
# Unchecked blocks

The table `unchecked` holds blocks that wait for another block. A value is a tag, a payload and a
trailer. The trailer can be found only behind a payload of known length, so other tags are refused.
-/

namespace NanoLedger

/-- The state of a signature check. -/
inductive Verification where
  | unknown
  | invalid
  | valid
  | validEpoch
  | other (code : UInt8)
deriving DecidableEq, Repr

namespace Verification

/-- The state that a byte stands for. -/
def ofByte : UInt8 → Verification
  | 0 => unknown
  | 1 => invalid
  | 2 => valid
  | 3 => validEpoch
  | code => other code

/-- The byte of a state. -/
def toByte : Verification → UInt8
  | unknown => 0
  | invalid => 1
  | valid => 2
  | validEpoch => 3
  | other code => code

/-- The state as JSON: its name, or its code under `other`. -/
def json : Verification → Json
  | unknown => .text "unknown"
  | invalid => .text "invalid"
  | valid => .text "valid"
  | validEpoch => .text "valid_epoch"
  | other code => .object [("other", .number code.toNat)]

@[simp] theorem toByte_ofByte (b : UInt8) : (ofByte b).toByte = b := by
  unfold ofByte
  split <;> rfl

/-- Every byte stands for a state of its own. -/
theorem ofByte_inj {b c : UInt8} : ofByte b = ofByte c ↔ b = c :=
  ⟨fun h => by simpa using congrArg toByte h, congrArg ofByte⟩

/-- Different states are shown differently. -/
theorem json_inj {v w : Verification} : v.json = w.json ↔ v = w := by
  cases v <;> cases w <;> simp [json, UInt8.toNat_inj]

end Verification

/-- An entry of the table `unchecked`. -/
structure UncheckedInfo where
  dependency : BlockHash
  hash : BlockHash
  block : Payload
  account : Account
  /-- seconds since 1970 -/
  modified : UInt64
  verified : Verification
deriving DecidableEq

namespace UncheckedInfo

/-- The key: the block that is waited for, and the block itself. -/
def keyLayout : Layout (BlockHash × BlockHash) :=
  (Identifier.layout .blockHash).pair (Identifier.layout .blockHash)

/-- What follows the payload. -/
def trailer : Layout (Account × UInt64 × UInt8) :=
  Account.layout.pair <| (Layout.word64 .littleEndian).pair Layout.byte

/-- Read a value: tag, payload, trailer. -/
def readValue : Read (Payload × Account × UInt64 × UInt8) := do
  let tag ← Read.byte
  let block ← Payload.read tag
  match block with
  | .unsupported tag _ => Read.fail (.unsupported tag)
  | block => return (block, ← trailer.read)

/-- The record of a key and a value. -/
def decode (key value : Bytes) : Except LedgerError UncheckedInfo := do
  let (dependency, hash) ← keyLayout.parse key
  let (block, account, modified, verified) ← readValue.eval value
  return { dependency, hash, block, account, modified, verified := .ofByte verified }

/-- The key of a record. -/
def writeKey (u : UncheckedInfo) : Bytes := keyLayout.write (u.dependency, u.hash)

/-- The value of a record. -/
def writeValue (u : UncheckedInfo) : Bytes :=
  u.block.tag :: (u.block.write ++ trailer.write (u.account, u.modified, u.verified.toByte))

/-- The record as JSON. -/
def json (u : UncheckedInfo) : Json := .object
  [("dependency", .text u.dependency.text), ("hash", .text u.hash.text), ("block", u.block.json),
    ("account", .text u.account.address), ("modified", .number u.modified.toNat),
    ("verified", u.verified.json)]

end UncheckedInfo

end NanoLedger
