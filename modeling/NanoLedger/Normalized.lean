import NanoLedger.Enrichment

/-!
# Normalized records

The flat forms in which blocks and accounts are exported: hashes in hexadecimal, accounts as
addresses, balances as decimal texts, and null for what is absent.
-/

namespace NanoLedger

/-- The flat form of an enriched block. -/
structure NormalizedBlock where
  hash : BlockHash
  amount : Balance
  balance : Balance
  height : UInt64
  /-- seconds since 1970, absent if the node recorded none -/
  localTimestamp : Option UInt64
  confirmed : Bool
  blockType : BlockType
  account : Account
  previous : BlockHash
  representative : Option Account
  link : Option Link
  linkAsAccount : Option Account
  signature : Signature
  work : Work
  subtype : Option Subtype
deriving DecidableEq

/-- The flat form of an enriched account. -/
structure NormalizedAccount where
  account : Account
  frontier : BlockHash
  openBlock : BlockHash
  /-- not stored in a ledger -/
  representativeBlock : Option BlockHash
  balance : Balance
  modifiedTimestamp : UInt64
  blockCount : UInt64
  confirmationHeight : UInt64
  confirmationHeightFrontier : Option BlockHash
deriving DecidableEq

/-- Flatten an enriched block. The time zero means that none was recorded. -/
def EnrichedBlock.normalize (b : EnrichedBlock) : NormalizedBlock where
  hash := b.hash
  amount := b.amount
  balance := b.fields.balance
  height := b.fields.height
  localTimestamp := if b.fields.timestamp = 0 then none else some b.fields.timestamp
  confirmed := b.confirmed
  blockType := b.fields.blockType
  account := b.fields.account
  previous := b.fields.previous
  representative := b.fields.representative
  link := b.fields.link
  linkAsAccount := b.fields.linkAsAccount
  signature := b.fields.signature
  work := b.fields.work
  subtype := b.subtype

/-- Flatten an enriched account. Without a recorded confirmation the height is zero. -/
def EnrichedAccount.normalize (a : EnrichedAccount) : NormalizedAccount where
  account := a.info.account
  frontier := a.info.head
  openBlock := a.info.openBlock
  representativeBlock := none
  balance := a.info.balance
  modifiedTimestamp := a.info.modified
  blockCount := a.info.blockCount
  confirmationHeight := (a.confirmation.map (·.height)).getD 0
  confirmationHeightFrontier := a.confirmation.map (·.frontier)

/-- The record as JSON. -/
def NormalizedBlock.json (b : NormalizedBlock) : Json := .object
  [("hash", .text b.hash.text),
    ("amount", .text b.amount.text),
    ("balance", .text b.balance.text),
    ("height", .number b.height.toNat),
    ("local_timestamp", .optional (fun t => .number t.toNat) b.localTimestamp),
    ("confirmed", .bool b.confirmed),
    ("type", b.blockType.json),
    ("account", .text b.account.address),
    ("previous", .text b.previous.text),
    ("representative", .optional (fun a => .text a.address) b.representative),
    ("link", .optional (fun l => .text l.text) b.link),
    ("link_as_account", .optional (fun a => .text a.address) b.linkAsAccount),
    ("signature", .text b.signature.text),
    ("work", .text b.work.text),
    ("subtype", .optional (fun s => .text s.name) b.subtype)]

/-- The record as JSON. -/
def NormalizedAccount.json (a : NormalizedAccount) : Json := .object
  [("account", .text a.account.address),
    ("frontier", .text a.frontier.text),
    ("open_block", .text a.openBlock.text),
    ("representative_block", .optional (fun h => .text h.text) a.representativeBlock),
    ("balance", .text a.balance.text),
    ("modified_timestamp", .number a.modifiedTimestamp.toNat),
    ("block_count", .number a.blockCount.toNat),
    ("confirmation_height", .number a.confirmationHeight.toNat),
    ("confirmation_height_frontier",
      .optional (fun h => .text h.text) a.confirmationHeightFrontier)]

end NanoLedger
