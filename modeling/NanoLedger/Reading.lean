import NanoLedger.Balance
import NanoLedger.Cursor

/-!
# Sequences of reads

The reads that a cursor offers, one value for each (`Reading`), and where they lead one after
another (`Reading.after`). A read that fails ends nothing, since the next one goes on from where
the cursor was left; a panic ends everything.
-/

namespace NanoLedger

/-- One of the reads that a cursor offers. Words of 16, 64 and 128 bits are numbers of two, eight
and sixteen bytes. -/
inductive Reading where
  | byte
  | number (width : Nat) (order : ByteOrder)
  | balance (order : ByteOrder)
  | uint (width : Nat) (order : ByteOrder)
  /-- hashes and signatures -/
  | octets (count : Nat)
  | bytes (count : Nat)
  | remaining
  | bitField (widths : List UInt32)

/-- What a read gives. -/
inductive Given where
  | number (n : Nat)
  | bytes (bs : Bytes)
  | groups (gs : List UInt8)

namespace Reading

open CheckedRead (ofRead)

/-- The read itself. -/
def read : Reading → CheckedRead Given
  | byte => (ofRead Read.byte).map fun b => .number b.toNat
  | number width order => (ofRead (Read.number width order)).map .number
  | balance order => (ofRead (Balance.layout order).read).map fun b => .number b.toNat
  | uint width order => (ofRead (Read.uint width order)).map .number
  | octets count => (ofRead (Read.octets count)).map fun o => .bytes o.bytes
  | bytes count => (CheckedRead.bytes count).map .bytes
  | remaining => (ofRead Read.remaining).map .bytes
  | bitField widths => (CheckedRead.bitField widths).map .groups

/-- The cursor behind a sequence of reads. -/
def after : List Reading → Cursor → Call Cursor
  | [], c => return c
  | r :: rs, c => do
    let (_, next) ← r.read.run c
    after rs next

end Reading

end NanoLedger
