import NanoLedger.Block
import NanoLedger.Record.Account
import NanoLedger.Store

/-!
# Enrichment

What a record does not hold itself is looked up in other tables of the same store. A block gets the
subtype that its flags imply, the amount by which it changes the balance of its account, for which
its predecessor is read, and whether it is confirmed, for which the confirmation height of its
account is read. An account gets its confirmation height. A record that is referred to and cannot
be read is a broken reference; a lookup that fails ends the enrichment with the error of the store.
-/

namespace NanoLedger

/-- What a state block does. -/
inductive Subtype where
  | opening
  | receive
  | send
  | change
  | epoch
deriving DecidableEq, Repr

namespace Subtype

/-- The name of a subtype. -/
def name : Subtype → String
  | opening => "open"
  | receive => "receive"
  | send => "send"
  | change => "change"
  | epoch => "epoch"

/-- The subtype that flags imply at a height. Receiving goes before sending, and both go before the
epoch flag; without any flag only the representative changes. -/
def ofFlags (flags : StateFlags) (height : UInt64) : Subtype :=
  if flags.isReceive ∧ height = 1 then opening
  else if flags.isReceive then receive
  else if flags.isSend then send
  else if flags.isEpoch then epoch
  else change

/-- The subtype of a block; only state blocks have one. -/
def ofBlock? : Block → Option Subtype
  | .state _ s => some (ofFlags s.flags s.height)
  | _ => none

end Subtype

/-- A block with what was derived for it. -/
structure EnrichedBlock where
  hash : BlockHash
  block : Block
  fields : BlockFields
  subtype : Option Subtype
  amount : Balance
  confirmed : Bool
deriving DecidableEq

/-- An account with its confirmation height, if there is one. -/
structure EnrichedAccount where
  info : AccountInfo
  confirmation : Option ConfirmationHeight
deriving DecidableEq

namespace Store

/-- The balance after the block with a hash, which a later block names as its predecessor. -/
def predecessorBalance (s : Store) (hash : BlockHash) : Except LedgerError Balance := do
  match ← s.get .blocks hash.bytes with
  | none => .error (.brokenChain ("predecessor " ++ hash.text ++ " not found"))
  | some value =>
    match (Block.decode value).bind Block.balance with
    | .ok balance => return balance
    | .error e => .error (.brokenChain ("predecessor " ++ hash.text ++ " unreadable: " ++ e.text))

/-- The confirmation height of an account, if one is recorded. -/
def confirmationHeight (s : Store) (account : Account) :
    Except LedgerError (Option ConfirmationHeight) := do
  match ← s.get .confirmationHeight account.key.bytes with
  | none => return none
  | some value =>
    match ConfirmationHeight.decode account.key.bytes value with
    | .ok c => return some c
    | .error e =>
      let context := "confirmation height of " ++ account.address ++ " unreadable: " ++ e.text
      .error (.brokenChain context)

/-- The amount by which a block changes the balance. The first block of a chain brings all of it. -/
def amount (s : Store) (fields : BlockFields) : Except LedgerError Balance :=
  if 1 < fields.height then do
    return (← s.predecessorBalance fields.previous).delta fields.balance
  else .ok fields.balance

/-- Whether a block is confirmed: the height recorded for its account, zero where none is, reaches
the height of the block. -/
def confirmed (s : Store) (fields : BlockFields) : Except LedgerError Bool := do
  let recorded ← s.confirmationHeight fields.account
  return fields.height ≤ (recorded.map (·.height)).getD 0

/-- Derive what can be derived for a block. -/
def enrich (s : Store) (record : BlockRecord) : Except LedgerError EnrichedBlock := do
  let fields ← record.block.fields
  let amount ← s.amount fields
  let confirmed ← s.confirmed fields
  return { hash := record.hash, block := record.block, fields,
           subtype := Subtype.ofBlock? record.block, amount, confirmed }

/-- Look up the confirmation height of an account. -/
def enrichAccount (s : Store) (info : AccountInfo) : Except LedgerError EnrichedAccount := do
  return { info, confirmation := ← s.confirmationHeight info.account }

end Store

end NanoLedger
