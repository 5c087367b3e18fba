import NanoLedger.Json
import NanoLedger.Layout

/-!
# Kinds of blocks, epochs and flags

The first byte of a stored block is the tag of its kind. State blocks end in a byte of flags: three
bits for send, receive and epoch, and a number of five bits for the epoch.
-/

namespace NanoLedger

/-- The kinds that have a tag. Only the last five are kinds of stored blocks. -/
inductive BlockType where
  | invalid
  | notABlock
  | send
  | receive
  | opening
  | change
  | state
deriving DecidableEq, Repr

namespace BlockType

/-- The kinds in the order of their tags. -/
def all : List BlockType := [invalid, notABlock, send, receive, opening, change, state]

/-- The tag of a kind. -/
def tag : BlockType → UInt8
  | invalid => 0
  | notABlock => 1
  | send => 2
  | receive => 3
  | opening => 4
  | change => 5
  | state => 6

/-- The kind of a tag. -/
def ofTag? (tag : UInt8) : Option BlockType := all.find? (·.tag = tag)

/-- The name of a kind. -/
def name : BlockType → String
  | invalid => "invalid"
  | notABlock => "not_a_block"
  | send => "send"
  | receive => "receive"
  | opening => "open"
  | change => "change"
  | state => "state"

/-- The kind as JSON: its name. -/
def json (t : BlockType) : Json := .text t.name

theorem ofTag?_tag (t : BlockType) : ofTag? t.tag = some t := by cases t <;> decide

theorem tag_of_ofTag? {tag : UInt8} {t : BlockType} (h : ofTag? tag = some t) : t.tag = tag := by
  simpa using List.find?_some h

end BlockType

/-- The epoch of a ledger entry. -/
inductive Epoch where
  | invalid
  | unspecified
  | epoch0
  | epoch1
  | epoch2
  | unknown (value : UInt8)
deriving DecidableEq, Repr

namespace Epoch

/-- The epoch that a byte stands for. -/
def ofByte : UInt8 → Epoch
  | 0 => invalid
  | 1 => unspecified
  | 2 => epoch0
  | 3 => epoch1
  | 4 => epoch2
  | value => unknown value

/-- The byte of an epoch. -/
def toByte : Epoch → UInt8
  | invalid => 0
  | unspecified => 1
  | epoch0 => 2
  | epoch1 => 3
  | epoch2 => 4
  | unknown value => value

/-- The epoch as JSON: its name, or its value under `unknown`. -/
def json : Epoch → Json
  | invalid => .text "invalid"
  | unspecified => .text "unspecified"
  | epoch0 => .text "epoch_0"
  | epoch1 => .text "epoch_1"
  | epoch2 => .text "epoch_2"
  | unknown value => .object [("unknown", .number value.toNat)]

@[simp] theorem toByte_ofByte (b : UInt8) : (ofByte b).toByte = b := by
  unfold ofByte
  split <;> rfl

/-- Every byte stands for an epoch of its own. -/
theorem ofByte_inj {b c : UInt8} : ofByte b = ofByte c ↔ b = c :=
  ⟨fun h => by simpa using congrArg toByte h, congrArg ofByte⟩

/-- Different epochs are shown differently. -/
theorem json_inj {e f : Epoch} : e.json = f.json ↔ e = f := by
  cases e <;> cases f <;> simp [json, UInt8.toNat_inj]

end Epoch

/-- The flags of a state block. -/
structure StateFlags where
  isSend : Bool
  isReceive : Bool
  isEpoch : Bool
  /-- the number of the epoch, of five bits -/
  epochNumber : Fin 32
deriving DecidableEq, Repr

namespace StateFlags

/-- The epoch that the flags name. -/
def epoch (f : StateFlags) : Epoch := .ofByte (UInt8.ofNat f.epochNumber.val)

/-- The flags in a byte, send in its highest bit. -/
def ofByte (b : UInt8) : StateFlags where
  isSend := b.toNat.testBit 7
  isReceive := b.toNat.testBit 6
  isEpoch := b.toNat.testBit 5
  epochNumber := ⟨b.toNat % 32, Nat.mod_lt _ (by decide)⟩

/-- The byte that holds the flags. -/
def toByte (f : StateFlags) : UInt8 :=
  UInt8.ofNat
    (128 * f.isSend.toNat + 64 * f.isReceive.toNat + 32 * f.isEpoch.toNat + f.epochNumber.val)

theorem toByte_ofByte (b : UInt8) : (ofByte b).toByte = b := by
  have h : ∀ k : Fin 256, (ofByte (UInt8.ofFin k)).toByte = UInt8.ofFin k := by decide +kernel
  exact h b.toFin

theorem ofByte_toByte : ∀ f : StateFlags, ofByte f.toByte = f := by
  have h : ∀ (s r e : Bool) (n : Fin 32), ofByte (toByte ⟨s, r, e, n⟩) = ⟨s, r, e, n⟩ := by
    decide +kernel
  intro ⟨s, r, e, n⟩
  exact h s r e n

/-- Flags in a value: one byte. -/
def layout : Layout StateFlags := Layout.byte.map ofByte toByte ofByte_toByte toByte_ofByte

@[simp] theorem write_layout (f : StateFlags) : layout.write f = [f.toByte] := by
  rw [layout, Layout.write_map, Layout.write_byte]

end StateFlags

end NanoLedger
