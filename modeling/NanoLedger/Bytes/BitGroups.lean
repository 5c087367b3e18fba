import NanoLedger.Bytes.Basic
import NanoLedger.Call

/-!
# Bits of a byte string

Bits are taken most significant first. `Bits.ofBytes` lists the bits of a byte string, and
`Bits.groups` cuts a list of bits into groups of one width, which `Bits.value` reads as numbers.
`splitByte` cuts one byte into groups of given widths, if no width is zero and they add up to eight.
The widths are 32-bit words and so are their sum and the shifts computed from them, in checked
arithmetic: widths whose sum is no such word panic.
-/

namespace NanoLedger

namespace Bits

/-- The `width` low bits of a number, most significant first. -/
def ofNat : Nat → Nat → List Bool
  | 0, _ => []
  | w + 1, n => n.testBit w :: ofNat w n

/-- The bits of a byte string. -/
def ofBytes (bytes : Bytes) : List Bool := bytes.flatMap fun b => ofNat 8 b.toNat

/-- The number with the given bits. -/
def value (bits : List Bool) : Nat := bits.foldl (fun n b => 2 * n + b.toNat) 0

/-- The first `count` groups of `width` bits. -/
def groups (width : Nat) : Nat → List Bool → List (List Bool)
  | 0, _ => []
  | count + 1, bits => bits.take width :: groups width count (bits.drop width)

@[simp] theorem length_groups (width count : Nat) (bits : List Bool) :
    (groups width count bits).length = count := by
  induction count generalizing bits with
  | zero => rfl
  | succ count ih => simp [groups, ih]

@[simp] theorem length_ofNat (width n : Nat) : (ofNat width n).length = width := by
  induction width with
  | zero => rfl
  | succ width ih => simp [ofNat, ih]

end Bits

/-- Cut a byte into groups, of which the first ends `shift` bits above the end of the byte. -/
def cutGroups (byte : UInt8) : UInt32 → List UInt32 → Call (List UInt8)
  | _, [] => return []
  | shift, width :: widths => do
    let below ← Checked.sub shift width
    -- a bit that is shifted within its word is not lost, so there is something to take one from
    let mask := ((← Checked.shiftLeft 1 width) - 1).toUInt8
    let group := (← Checked.shiftRight byte below) &&& mask
    return group :: (← cutGroups byte below widths)

/-- Cut a byte into groups of the given widths, most significant first. Nothing comes of widths that
do not cover the byte. The widths are added before any of them is looked at. -/
def splitByte (byte : UInt8) (widths : List UInt32) : Call (Option (List UInt8)) := do
  let total ← Checked.sum widths
  if total = 8 && !widths.contains 0 then
    return some (← cutGroups byte 8 widths)
  else
    return none

end NanoLedger
