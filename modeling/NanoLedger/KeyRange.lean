import NanoLedger.Bytes.Basic

/-!
# Key ranges

A key range runs from a first key, included, to a last one, excluded; either may be missing. The
keys of a table are cut into shards at their first byte: the boundaries divide the 256 values of
that byte evenly, and neighbouring ranges share a boundary.
-/

namespace NanoLedger

/-- The keys from `start` on and below `stop`. -/
structure KeyRange where
  start : Option Bytes
  stop : Option Bytes
deriving DecidableEq, Repr

namespace KeyRange

/-- The keys of a range. -/
def Contains (r : KeyRange) (key : Bytes) : Prop :=
  (∀ start ∈ r.start, start ≤ key) ∧ ∀ stop ∈ r.stop, key < stop

instance (r : KeyRange) (key : Bytes) : Decidable (r.Contains key) := by
  unfold Contains; infer_instance

/-- The part of a range from a key on, unless nothing is left of it. -/
def startingAt (r : KeyRange) (key : Bytes) : Option KeyRange :=
  let isPast := match r.stop with
    | some stop => decide (¬ key < stop)
    | none => false
  if isPast then none
  else
    match r.start with
    | some start => some { r with start := some (if key < start then start else key) }
    | none => some { r with start := some key }

/-- The number of shards that are made when `shards` are asked for. -/
def shardCount (shards : Nat) : Nat := max 1 (min shards 256)

/-- The key at which shard `i` of `count` starts. -/
def boundary (count i : Nat) : Bytes := [UInt8.ofNat (i * 256 / count)]

/-- Shard `i` of `count`. The first one has no lower bound and the last one no upper bound. -/
def shard (count i : Nat) : KeyRange where
  start := if i = 0 then none else some (boundary count i)
  stop := if i + 1 = count then none else some (boundary count (i + 1))

/-- The shards of the key space, at least one and at most 256. -/
def shards (shards : Nat) : List KeyRange :=
  (List.range (shardCount shards)).map (shard (shardCount shards))

end KeyRange

end NanoLedger
