import NanoLedger.Balance
import NanoLedger.Block.Kind
import NanoLedger.Identifier

/-!
# Payloads

The payload is the part of a block that its owner signs and sends. Each kind has its own fields in
its own order; numbers are big-endian, but the work of all kinds other than `state` is
little-endian. A payload of an unknown kind is kept as bytes.
-/

namespace NanoLedger

/-- The payload of a block that sends to an account. -/
structure SendPayload where
  previous : BlockHash
  destination : Account
  balance : Balance
  signature : Signature
  work : Work
deriving DecidableEq

/-- The payload of a block that receives from a send block. -/
structure ReceivePayload where
  previous : BlockHash
  source : BlockHash
  signature : Signature
  work : Work
deriving DecidableEq

/-- The payload of the first block of an account. -/
structure OpenPayload where
  source : BlockHash
  representative : Account
  account : Account
  signature : Signature
  work : Work
deriving DecidableEq

/-- The payload of a block that changes the representative. -/
structure ChangePayload where
  previous : BlockHash
  representative : Account
  signature : Signature
  work : Work
deriving DecidableEq

/-- The payload of a block that states all of the account's fields. -/
structure StatePayload where
  account : Account
  previous : BlockHash
  representative : Account
  balance : Balance
  link : Link
  signature : Signature
  work : Work
deriving DecidableEq

namespace SendPayload

/-- The fields in the order in which they are stored. -/
def layout : Layout SendPayload :=
  ((Identifier.layout .blockHash).pair <| Account.layout.pair <| (Balance.layout .bigEndian).pair <|
    (Identifier.layout .signature).pair <| Work.layout .littleEndian).map
    (fun (previous, destination, balance, signature, work) =>
      { previous, destination, balance, signature, work })
    (fun p => (p.previous, p.destination, p.balance, p.signature, p.work))
    (fun _ => rfl) (fun _ => rfl)

/-- The fields as JSON. -/
def fields (p : SendPayload) : List (String × Json) :=
  [("previous", .text p.previous.text), ("destination", .text p.destination.address),
    ("balance", .text p.balance.text), ("signature", .text p.signature.text),
    ("work", .text p.work.text)]

end SendPayload

namespace ReceivePayload

/-- The fields in the order in which they are stored. -/
def layout : Layout ReceivePayload :=
  ((Identifier.layout .blockHash).pair <| (Identifier.layout .blockHash).pair <|
    (Identifier.layout .signature).pair <| Work.layout .littleEndian).map
    (fun (previous, source, signature, work) => { previous, source, signature, work })
    (fun p => (p.previous, p.source, p.signature, p.work))
    (fun _ => rfl) (fun _ => rfl)

/-- The fields as JSON. -/
def fields (p : ReceivePayload) : List (String × Json) :=
  [("previous", .text p.previous.text), ("source", .text p.source.text),
    ("signature", .text p.signature.text), ("work", .text p.work.text)]

end ReceivePayload

namespace OpenPayload

/-- The fields in the order in which they are stored. -/
def layout : Layout OpenPayload :=
  ((Identifier.layout .blockHash).pair <| Account.layout.pair <| Account.layout.pair <|
    (Identifier.layout .signature).pair <| Work.layout .littleEndian).map
    (fun (source, representative, account, signature, work) =>
      { source, representative, account, signature, work })
    (fun p => (p.source, p.representative, p.account, p.signature, p.work))
    (fun _ => rfl) (fun _ => rfl)

/-- The fields as JSON. -/
def fields (p : OpenPayload) : List (String × Json) :=
  [("source", .text p.source.text), ("representative", .text p.representative.address),
    ("account", .text p.account.address), ("signature", .text p.signature.text),
    ("work", .text p.work.text)]

end OpenPayload

namespace ChangePayload

/-- The fields in the order in which they are stored. -/
def layout : Layout ChangePayload :=
  ((Identifier.layout .blockHash).pair <| Account.layout.pair <|
    (Identifier.layout .signature).pair <| Work.layout .littleEndian).map
    (fun (previous, representative, signature, work) =>
      { previous, representative, signature, work })
    (fun p => (p.previous, p.representative, p.signature, p.work))
    (fun _ => rfl) (fun _ => rfl)

/-- The fields as JSON. -/
def fields (p : ChangePayload) : List (String × Json) :=
  [("previous", .text p.previous.text), ("representative", .text p.representative.address),
    ("signature", .text p.signature.text), ("work", .text p.work.text)]

end ChangePayload

namespace StatePayload

/-- The fields in the order in which they are stored. -/
def layout : Layout StatePayload :=
  (Account.layout.pair <| (Identifier.layout .blockHash).pair <| Account.layout.pair <|
    (Balance.layout .bigEndian).pair <| (Identifier.layout .link).pair <|
    (Identifier.layout .signature).pair <| Work.layout .bigEndian).map
    (fun (account, previous, representative, balance, link, signature, work) =>
      { account, previous, representative, balance, link, signature, work })
    (fun p => (p.account, p.previous, p.representative, p.balance, p.link, p.signature, p.work))
    (fun _ => rfl) (fun _ => rfl)

/-- The fields as JSON. -/
def fields (p : StatePayload) : List (String × Json) :=
  [("account", .text p.account.address), ("previous", .text p.previous.text),
    ("representative", .text p.representative.address), ("balance", .text p.balance.text),
    ("link", .text p.link.text), ("signature", .text p.signature.text),
    ("work", .text p.work.text)]

end StatePayload

/-- A payload of any kind. -/
inductive Payload where
  | send (payload : SendPayload)
  | receive (payload : ReceivePayload)
  | opening (payload : OpenPayload)
  | change (payload : ChangePayload)
  | state (payload : StatePayload)
  | unsupported (tag : UInt8) (contents : Bytes)
deriving DecidableEq

namespace Payload

/-- Read the payload of the kind with the given tag. A payload of an unknown kind extends to the
end. -/
def read (tag : UInt8) : Read Payload :=
  match BlockType.ofTag? tag with
  | some .send => return .send (← SendPayload.layout.read)
  | some .receive => return .receive (← ReceivePayload.layout.read)
  | some .opening => return .opening (← OpenPayload.layout.read)
  | some .change => return .change (← ChangePayload.layout.read)
  | some .state => return .state (← StatePayload.layout.read)
  | some .invalid | some .notABlock | none => return .unsupported tag (← Read.remaining)

/-- The tag of a payload's kind. -/
def tag : Payload → UInt8
  | send _ => BlockType.send.tag
  | receive _ => BlockType.receive.tag
  | opening _ => BlockType.opening.tag
  | change _ => BlockType.change.tag
  | state _ => BlockType.state.tag
  | unsupported tag _ => tag

/-- The bytes of a payload, without its tag. -/
def write : Payload → Bytes
  | send p => SendPayload.layout.write p
  | receive p => ReceivePayload.layout.write p
  | opening p => OpenPayload.layout.write p
  | change p => ChangePayload.layout.write p
  | state p => StatePayload.layout.write p
  | unsupported _ contents => contents

/-- The payload as JSON, with its kind in front of its fields. -/
def json : Payload → Json
  | send p => .object (("type", BlockType.send.json) :: p.fields)
  | receive p => .object (("type", BlockType.receive.json) :: p.fields)
  | opening p => .object (("type", BlockType.opening.json) :: p.fields)
  | change p => .object (("type", BlockType.change.json) :: p.fields)
  | state p => .object (("type", BlockType.state.json) :: p.fields)
  | unsupported tag contents => .object
    [("type", .text "unsupported"), ("tag", .number tag.toNat),
      ("payload", .list (contents.map fun b => .number b.toNat))]

end Payload

end NanoLedger
