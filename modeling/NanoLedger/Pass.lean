import NanoLedger.RecordKind
import NanoLedger.Text.Blank

/-!
# Passes

A pass walks through a table in ascending order of keys and makes a record of each entry
(`Pass.next`). An entry that makes no record is counted and passed over; an error of the store ends
the pass and is kept for its end (`Pass.finish`). A pass may stop at a key, and after a number of
records.

Passes may also share one budget of records. Such a pass looks whether any budget is left before it
takes an entry and claims one unit of it after the record is made, and other passes may act between
the two. So a step of a pass is split into `Pass.draw` and `Pass.take`, and `Pass.nextShared` does
both with nothing in between.
-/

namespace NanoLedger

/-- Where a pass starts and how many records it makes at most. -/
structure PassOptions where
  start : Option Bytes := none
  limit : Option Nat := none
deriving DecidableEq, Repr

/-- Options to start at a key given in hexadecimal, blank characters around it being ignored. -/
def PassOptions.ofHexKey (key : String) : Except LedgerError PassOptions :=
  match Hex.decode (Text.trim key) with
  | .ok start => .ok { start := some start }
  | .error fault => .error ((LedgerError.ofHex fault).join ("start key `" ++ key ++ "`"))

/-- An entry of which no record could be made. -/
structure DecodeFailure where
  key : Bytes
  error : LedgerError
deriving DecidableEq, Repr

/-- The failure as it is shown. -/
def DecodeFailure.text (f : DecodeFailure) : String := Hex.encode f.key ++ ": " ++ f.error.text

/-- How many entries became records and how many were passed over. -/
structure Counts where
  produced : Nat := 0
  skipped : Nat := 0
deriving DecidableEq, Repr

namespace Counts

instance : Add Counts where
  add a b := ⟨a.produced + b.produced, a.skipped + b.skipped⟩

/-- The counts as they are shown to a programmer. -/
def inspect (c : Counts) : String :=
  "ScanSummary \x7b produced: " ++ toString c.produced ++ ", skipped: " ++ toString c.skipped ++
    " \x7d"

end Counts

/-- How many records several passes may still make together; none if there is no common limit. -/
abbrev Budget := Option Nat

namespace Budget

/-- Whether a record may still be made. -/
def isLeft (b : Budget) : Bool := b ≠ some 0

/-- What is left after one more record, if it may still be made. -/
def claim? : Budget → Option Budget
  | none => some none
  | some 0 => none
  | some (n + 1) => some (some n)

end Budget

/-- What a pass gives for one entry. -/
inductive Item (α : Type) where
  | record (r : α)
  | failure (f : DecodeFailure)

/-- Whether a pass goes on, and what ended it. -/
inductive Progress where
  | running
  | done
  | failed (e : LedgerError)
deriving DecidableEq, Repr

/-- A pass through a table. -/
structure Pass (α : Type) where
  table : Table
  /-- the record of an entry -/
  read : Entry → Except LedgerError α
  /-- what is left of the walk -/
  rest : Walk
  /-- the key at which the pass stops, itself not included -/
  bound : Option Bytes := none
  /-- how many records the pass may still make -/
  remaining : Option Nat := none
  counts : Counts := {}
  progress : Progress := .running

/-- What comes of drawing an entry: the pass has ended, the entry is passed over, or a record has
been made that is still to be taken. -/
inductive Draw (α : Type) where
  | ended (p : Pass α)
  | skipped (f : DecodeFailure) (p : Pass α)
  | ready (r : α) (p : Pass α)

namespace Pass

variable {α : Type}

/-- The error for a start key behind which no entry lies. -/
def noEntryFrom (table : Table) (key : Bytes) : LedgerError :=
  { cause := .keyNotFound, context := table.name ++ " from " ++ Hex.encode key }

/-- Begin a pass in a range of keys. If it is strict, an entry at or behind the start key must
exist. -/
def inRange (kind : RecordKind) (s : Store) (start bound : Option Bytes) (limit : Option Nat)
    (strict : Bool) : Except LedgerError (Pass kind.Record) := do
  let walk ← s.walk kind.table start
  match strict, start, walk with
  | true, some key, [] => .error (noEntryFrom kind.table key)
  | _, _, _ =>
    return { table := kind.table, read := kind.read s, rest := walk, bound, remaining := limit }

/-- Begin a pass through a whole table, or from a start key on. -/
def start (kind : RecordKind) (s : Store) (options : PassOptions) :
    Except LedgerError (Pass kind.Record) :=
  inRange kind s options.start none options.limit true

/-- The log line of a pass that has begun. -/
def startLine (table : Table) (start : Option Bytes) : LogLine :=
  .info ("Scanning `" ++ table.name ++ "` from " ++
    match start with
    | some key => Hex.encode key
    | none => "the first key")

/-- End a pass. -/
def stop (p : Pass α) (progress : Progress) : Pass α := { p with progress }

/-- Whether a key lies at or behind the bound of a pass. -/
def reaches (p : Pass α) (key : Bytes) : Bool :=
  match p.bound with
  | some bound => ¬ key < bound
  | none => false

/-- Take the next entry and make a record of it, unless the pass is over or no budget is left. -/
def draw (p : Pass α) (budgetLeft : Bool) : Draw α :=
  if p.progress ≠ .running ∨ p.remaining = some 0 then .ended p
  else if ¬ budgetLeft then .ended (p.stop .done)
  else
    match p.rest with
    | [] => .ended (p.stop .done)
    | .error e :: _ => .ended (p.stop (.failed e))
    | .ok entry :: rest =>
      if p.reaches entry.key then .ended (p.stop .done)
      else
        match p.read entry with
        | .ok r => .ready r { p with rest }
        | .error e =>
          if e.isSkippable then
            .skipped ⟨entry.key, e⟩
              { p with rest, counts := { p.counts with skipped := p.counts.skipped + 1 } }
          else .ended (p.stop (.failed e))

/-- Count a record that was made. -/
def take (p : Pass α) : Pass α :=
  { p with counts := { p.counts with produced := p.counts.produced + 1 },
           remaining := p.remaining.map (· - 1) }

/-- The next item of a pass that has its records to itself. -/
def next (p : Pass α) : Option (Item α) × Pass α :=
  match p.draw true with
  | .ended p => (none, p)
  | .skipped f p => (some (.failure f), p)
  | .ready r p => (some (.record r), p.take)

/-- The next item of a pass that shares a budget, and what is left of the budget. A record for which
nothing is left to claim is dropped, and the pass ends. -/
def nextShared (p : Pass α) (budget : Budget) : Option (Item α) × Pass α × Budget :=
  match p.draw budget.isLeft with
  | .ended p => (none, p, budget)
  | .skipped f p => (some (.failure f), p, budget)
  | .ready r p =>
    match budget.claim? with
    | none => (none, p.stop .done, budget)
    | some budget => (some (.record r), p.take, budget)

/-- The items of the first `n` calls of `next`, and the pass after them. -/
def run : Nat → Pass α → List (Option (Item α)) × Pass α
  | 0, p => ([], p)
  | n + 1, p =>
    let (item, p) := p.next
    let (items, p) := run n p
    (item :: items, p)

/-- The number of calls of `next` after which a pass is surely over. -/
def enough (p : Pass α) : Nat := p.rest.length + 1

/-- The counts of a pass, or the error that ended it. -/
def finish (p : Pass α) : Except LedgerError Counts :=
  match p.progress with
  | .failed e => .error (e.join ("scanning `" ++ p.table.name ++ "`"))
  | _ => .ok p.counts

end Pass

/-- The log line of an entry that is passed over. -/
def DecodeFailure.line (table : Table) (f : DecodeFailure) : LogLine :=
  .warn ("skipped `" ++ table.name ++ "` record " ++ Hex.encode f.key ++ ": " ++ f.error.text)

/-- What giving an item has logged. -/
def Item.log (kind : RecordKind) : Item kind.Record → List LogLine
  | record r => kind.log r
  | failure f => [f.line kind.table]

end NanoLedger
