import NanoLedger.Block.Payload
import NanoLedger.Block.Sideband

/-!
# Stored blocks

A value of the table `blocks` is the tag of a kind, the payload and the sideband of that kind, and
anything behind them. `Block.decode` reads such a value and `Block.encode` writes it; a block of
any other tag is opaque and keeps its bytes. `Block.fields` shows what all kinds have in common in
one record, whichever half of the block holds it.
-/

namespace NanoLedger

/-- A block as it is stored. -/
inductive Block where
  | send (payload : SendPayload) (sideband : SendSideband)
  | receive (payload : ReceivePayload) (sideband : ReceiveSideband)
  | opening (payload : OpenPayload) (sideband : OpenSideband)
  | change (payload : ChangePayload) (sideband : ChangeSideband)
  | state (payload : StatePayload) (sideband : StateSideband)
  | unsupported (tag : UInt8) (contents : Bytes)
deriving DecidableEq

/-- What can be said of a block of any supported kind. -/
structure BlockFields where
  blockType : BlockType
  account : Account
  height : UInt64
  balance : Balance
  previous : BlockHash
  representative : Option Account
  link : Option Link
  linkAsAccount : Option Account
  signature : Signature
  work : Work
  timestamp : UInt64
deriving DecidableEq

namespace Block

/-- Read a stored block: tag, payload, sideband. -/
def read : Read Block := do
  let tag ← Read.byte
  match BlockType.ofTag? tag with
  | some .send => return .send (← SendPayload.layout.read) (← SendSideband.layout.read)
  | some .receive => return .receive (← ReceivePayload.layout.read) (← ReceiveSideband.layout.read)
  | some .opening => return .opening (← OpenPayload.layout.read) (← OpenSideband.layout.read)
  | some .change => return .change (← ChangePayload.layout.read) (← ChangeSideband.layout.read)
  | some .state => return .state (← StatePayload.layout.read) (← StateSideband.layout.read)
  | some .invalid | some .notABlock | none => return .unsupported tag (← Read.remaining)

/-- The block that a value of the table `blocks` holds. -/
def decode (value : Bytes) : Except LedgerError Block := read.eval value

/-- The value of the table `blocks` that holds a block and nothing else. -/
def encode : Block → Bytes
  | send p s => BlockType.send.tag :: (SendPayload.layout.write p ++ SendSideband.layout.write s)
  | receive p s =>
    BlockType.receive.tag :: (ReceivePayload.layout.write p ++ ReceiveSideband.layout.write s)
  | opening p s =>
    BlockType.opening.tag :: (OpenPayload.layout.write p ++ OpenSideband.layout.write s)
  | change p s =>
    BlockType.change.tag :: (ChangePayload.layout.write p ++ ChangeSideband.layout.write s)
  | state p s => BlockType.state.tag :: (StatePayload.layout.write p ++ StateSideband.layout.write s)
  | unsupported tag contents => tag :: contents

/-- The kind of a block, unless it is opaque. -/
def type? : Block → Option BlockType
  | send .. => some .send
  | receive .. => some .receive
  | opening .. => some .opening
  | change .. => some .change
  | state .. => some .state
  | unsupported .. => none

/-- The payload of a block. -/
def payload : Block → Payload
  | send p _ => .send p
  | receive p _ => .receive p
  | opening p _ => .opening p
  | change p _ => .change p
  | state p _ => .state p
  | unsupported tag contents => .unsupported tag contents

/-- The balance of the account after the block. -/
def balance : Block → Except LedgerError Balance
  | send p _ => .ok p.balance
  | state p _ => .ok p.balance
  | receive _ s => .ok s.balance
  | opening _ s => .ok s.balance
  | change _ s => .ok s.balance
  | unsupported tag _ => .error (.unsupported tag)

/-- The account to whose chain the block belongs. -/
def account : Block → Except LedgerError Account
  | state p _ => .ok p.account
  | opening p _ => .ok p.account
  | send _ s => .ok s.account
  | receive _ s => .ok s.account
  | change _ s => .ok s.account
  | unsupported tag _ => .error (.unsupported tag)

/-- The position of the block in the chain of its account, counted from one. -/
def height : Block → Except LedgerError UInt64
  | send _ s => .ok s.height
  | receive _ s => .ok s.height
  | opening .. => .ok 1
  | change _ s => .ok s.height
  | state _ s => .ok s.height
  | unsupported tag _ => .error (.unsupported tag)

/-- The hash of the block before this one; zeros for an open block. -/
def previous : Block → Except LedgerError BlockHash
  | send p _ => .ok p.previous
  | receive p _ => .ok p.previous
  | opening .. => .ok (.zero .blockHash)
  | change p _ => .ok p.previous
  | state p _ => .ok p.previous
  | unsupported tag _ => .error (.unsupported tag)

/-- The common fields of a block. -/
def fields : Block → Except LedgerError BlockFields
  | send p s => .ok
    { blockType := .send, account := s.account, height := s.height, balance := p.balance,
      previous := p.previous, representative := none, link := some p.destination.asLink,
      linkAsAccount := some p.destination, signature := p.signature, work := p.work,
      timestamp := s.timestamp }
  | receive p s => .ok
    { blockType := .receive, account := s.account, height := s.height, balance := s.balance,
      previous := p.previous, representative := none, link := some p.source.asLink,
      linkAsAccount := none, signature := p.signature, work := p.work, timestamp := s.timestamp }
  | opening p s => .ok
    { blockType := .opening, account := p.account, height := 1, balance := s.balance,
      previous := .zero .blockHash, representative := some p.representative,
      link := some p.source.asLink, linkAsAccount := none, signature := p.signature,
      work := p.work, timestamp := s.timestamp }
  | change p s => .ok
    { blockType := .change, account := s.account, height := s.height, balance := s.balance,
      previous := p.previous, representative := some p.representative, link := none,
      linkAsAccount := none, signature := p.signature, work := p.work, timestamp := s.timestamp }
  | state p s => .ok
    { blockType := .state, account := p.account, height := s.height, balance := p.balance,
      previous := p.previous, representative := some p.representative, link := some p.link,
      linkAsAccount := some p.link.asAccount, signature := p.signature, work := p.work,
      timestamp := s.timestamp }
  | unsupported tag _ => .error (.unsupported tag)

end Block

/-- An entry of the table `blocks`. -/
structure BlockRecord where
  hash : BlockHash
  block : Block
deriving DecidableEq

namespace BlockRecord

/-- The record of a key and a value. -/
def decode (key value : Bytes) : Except LedgerError BlockRecord := do
  let hash ← (Identifier.layout .blockHash).parse key
  let block ← Block.decode value
  return { hash, block }

end BlockRecord

end NanoLedger
