import NanoLedger.Balance
import NanoLedger.Block.Kind
import NanoLedger.Identifier

/-!
# Sidebands

Behind the payload of a stored block stands its sideband: what the node knows about the block and
the payload does not say. Its fields depend on the kind and all numbers are big-endian.
-/

namespace NanoLedger

/-- The sideband of a send block, whose balance is in the payload. -/
structure SendSideband where
  successor : BlockHash
  account : Account
  height : UInt64
  timestamp : UInt64
deriving DecidableEq

/-- The sideband of a receive block. -/
structure ReceiveSideband where
  successor : BlockHash
  account : Account
  height : UInt64
  balance : Balance
  timestamp : UInt64
deriving DecidableEq

/-- The sideband of an open block, which always has height one. -/
structure OpenSideband where
  successor : BlockHash
  balance : Balance
  timestamp : UInt64
deriving DecidableEq

/-- The sideband of a change block. -/
structure ChangeSideband where
  successor : BlockHash
  account : Account
  height : UInt64
  balance : Balance
  timestamp : UInt64
deriving DecidableEq

/-- The sideband of a state block. -/
structure StateSideband where
  successor : BlockHash
  height : UInt64
  timestamp : UInt64
  flags : StateFlags
deriving DecidableEq

/-- The fields of a send sideband in the order in which they are stored. -/
def SendSideband.layout : Layout SendSideband :=
  ((Identifier.layout .blockHash).pair <| Account.layout.pair <|
    (Layout.word64 .bigEndian).pair <| Layout.word64 .bigEndian).map
    (fun (successor, account, height, timestamp) => { successor, account, height, timestamp })
    (fun s => (s.successor, s.account, s.height, s.timestamp))
    (fun _ => rfl) (fun _ => rfl)

/-- The fields of a receive sideband in the order in which they are stored. -/
def ReceiveSideband.layout : Layout ReceiveSideband :=
  ((Identifier.layout .blockHash).pair <| Account.layout.pair <|
    (Layout.word64 .bigEndian).pair <| (Balance.layout .bigEndian).pair <|
    Layout.word64 .bigEndian).map
    (fun (successor, account, height, balance, timestamp) =>
      { successor, account, height, balance, timestamp })
    (fun s => (s.successor, s.account, s.height, s.balance, s.timestamp))
    (fun _ => rfl) (fun _ => rfl)

/-- The fields of an open sideband in the order in which they are stored. -/
def OpenSideband.layout : Layout OpenSideband :=
  ((Identifier.layout .blockHash).pair <| (Balance.layout .bigEndian).pair <|
    Layout.word64 .bigEndian).map
    (fun (successor, balance, timestamp) => { successor, balance, timestamp })
    (fun s => (s.successor, s.balance, s.timestamp))
    (fun _ => rfl) (fun _ => rfl)

/-- The fields of a change sideband in the order in which they are stored. -/
def ChangeSideband.layout : Layout ChangeSideband :=
  ((Identifier.layout .blockHash).pair <| Account.layout.pair <|
    (Layout.word64 .bigEndian).pair <| (Balance.layout .bigEndian).pair <|
    Layout.word64 .bigEndian).map
    (fun (successor, account, height, balance, timestamp) =>
      { successor, account, height, balance, timestamp })
    (fun s => (s.successor, s.account, s.height, s.balance, s.timestamp))
    (fun _ => rfl) (fun _ => rfl)

/-- The fields of a state sideband in the order in which they are stored. -/
def StateSideband.layout : Layout StateSideband :=
  ((Identifier.layout .blockHash).pair <| (Layout.word64 .bigEndian).pair <|
    (Layout.word64 .bigEndian).pair <| StateFlags.layout).map
    (fun (successor, height, timestamp, flags) => { successor, height, timestamp, flags })
    (fun s => (s.successor, s.height, s.timestamp, s.flags))
    (fun _ => rfl) (fun _ => rfl)

end NanoLedger
