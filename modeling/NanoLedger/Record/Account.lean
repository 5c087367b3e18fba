import NanoLedger.Identifier
import NanoLedger.Balance
import NanoLedger.Json
import NanoLedger.Record.Schema

/-!
# Accounts and confirmation heights

The tables `accounts` and `confirmation_height` are keyed by account. Their counters are
little-endian, the balance is big-endian.
-/

namespace NanoLedger

/-- An entry of the table `accounts`. -/
structure AccountInfo where
  account : Account
  head : BlockHash
  representative : Account
  openBlock : BlockHash
  balance : Balance
  /-- seconds since 1970 -/
  modified : UInt64
  blockCount : UInt64
deriving DecidableEq

namespace AccountInfo

/-- The account is the key; the other fields follow each other in the value. -/
def schema :
    Schema AccountInfo Account (BlockHash × Account × BlockHash × Balance × UInt64 × UInt64) where
  key := Account.layout
  value :=
    (Identifier.layout .blockHash).pair <| Account.layout.pair <|
      (Identifier.layout .blockHash).pair <| (Balance.layout .bigEndian).pair <|
      (Layout.word64 .littleEndian).pair <| Layout.word64 .littleEndian
  join account := fun (head, representative, openBlock, balance, modified, blockCount) =>
    { account, head, representative, openBlock, balance, modified, blockCount }
  keyPart a := a.account
  valuePart a := (a.head, a.representative, a.openBlock, a.balance, a.modified, a.blockCount)
  keyPart_join _ _ := rfl
  valuePart_join _ _ := rfl

/-- The record of a key and a value. -/
def decode (key value : Bytes) : Except LedgerError AccountInfo := schema.decode key value

/-- The record as JSON. -/
def json (a : AccountInfo) : Json := .object
  [("account", .text a.account.address), ("head", .text a.head.text),
    ("representative", .text a.representative.address), ("open_block", .text a.openBlock.text),
    ("balance", .text a.balance.text), ("modified", .number a.modified.toNat),
    ("block_count", .number a.blockCount.toNat)]

end AccountInfo

/-- An entry of the table `confirmation_height`: up to which block the account is confirmed. -/
structure ConfirmationHeight where
  account : Account
  height : UInt64
  frontier : BlockHash
deriving DecidableEq

namespace ConfirmationHeight

/-- The account is the key; height and frontier follow each other in the value. -/
def schema : Schema ConfirmationHeight Account (UInt64 × BlockHash) where
  key := Account.layout
  value := (Layout.word64 .littleEndian).pair (Identifier.layout .blockHash)
  join account := fun (height, frontier) => { account, height, frontier }
  keyPart c := c.account
  valuePart c := (c.height, c.frontier)
  keyPart_join _ _ := rfl
  valuePart_join _ _ := rfl

/-- The record of a key and a value. -/
def decode (key value : Bytes) : Except LedgerError ConfirmationHeight := schema.decode key value

/-- The record as JSON. -/
def json (c : ConfirmationHeight) : Json := .object
  [("account", .text c.account.address), ("height", .number c.height.toNat),
    ("frontier", .text c.frontier.text)]

end ConfirmationHeight

end NanoLedger
