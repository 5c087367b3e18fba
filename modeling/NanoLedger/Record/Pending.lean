import NanoLedger.Block.Kind
import NanoLedger.Identifier
import NanoLedger.Balance
import NanoLedger.Record.Schema

/-!
# Receivable amounts, frontiers and online weight

Three tables of small records: amounts that were sent and not yet received, the heads of chains of
the older block kinds, and samples of the voting weight that was online.
-/

namespace NanoLedger

/-- An entry of the table `pending`: an amount that an account may receive. -/
structure PendingInfo where
  account : Account
  hash : BlockHash
  source : Account
  amount : Balance
  epoch : Epoch
deriving DecidableEq

namespace PendingInfo

/-- The key is the receiving account and the hash of the send block. -/
def schema : Schema PendingInfo (Account × BlockHash) (Account × Balance × UInt8) where
  key := Account.layout.pair (Identifier.layout .blockHash)
  value := Account.layout.pair <| (Balance.layout .bigEndian).pair Layout.byte
  join := fun (account, hash) (source, amount, epoch) =>
    { account, hash, source, amount, epoch := .ofByte epoch }
  keyPart p := (p.account, p.hash)
  valuePart p := (p.source, p.amount, p.epoch.toByte)
  keyPart_join _ _ := rfl
  valuePart_join _ v := by rw [Epoch.toByte_ofByte]

/-- The record of a key and a value. -/
def decode (key value : Bytes) : Except LedgerError PendingInfo := schema.decode key value

/-- The record as JSON. -/
def json (p : PendingInfo) : Json := .object
  [("account", .text p.account.address), ("hash", .text p.hash.text),
    ("source", .text p.source.address), ("amount", .text p.amount.text), ("epoch", p.epoch.json)]

end PendingInfo

/-- An entry of the table `frontiers`: the head block of an account. -/
structure FrontierInfo where
  hash : BlockHash
  account : Account
deriving DecidableEq

namespace FrontierInfo

/-- The hash is the key, the account the value. -/
def schema : Schema FrontierInfo BlockHash Account where
  key := Identifier.layout .blockHash
  value := Account.layout
  join hash account := { hash, account }
  keyPart f := f.hash
  valuePart f := f.account
  keyPart_join _ _ := rfl
  valuePart_join _ _ := rfl

/-- The record of a key and a value. -/
def decode (key value : Bytes) : Except LedgerError FrontierInfo := schema.decode key value

/-- The record as JSON. -/
def json (f : FrontierInfo) : Json := .object
  [("hash", .text f.hash.text), ("account", .text f.account.address)]

end FrontierInfo

/-- An entry of the table `online_weight`: the weight that was online at one time. -/
structure OnlineWeight where
  /-- microseconds since 1970 -/
  timestamp : UInt64
  amount : Balance
deriving DecidableEq

namespace OnlineWeight

/-- The time is the key, the weight the value, both big-endian. -/
def schema : Schema OnlineWeight UInt64 Balance where
  key := Layout.word64 .bigEndian
  value := Balance.layout .bigEndian
  join timestamp amount := { timestamp, amount }
  keyPart w := w.timestamp
  valuePart w := w.amount
  keyPart_join _ _ := rfl
  valuePart_join _ _ := rfl

/-- The record of a key and a value. -/
def decode (key value : Bytes) : Except LedgerError OnlineWeight := schema.decode key value

/-- The record as JSON. -/
def json (w : OnlineWeight) : Json := .object
  [("timestamp", .number w.timestamp.toNat), ("amount", .text w.amount.text)]

end OnlineWeight

end NanoLedger
