import NanoLedger.Json
import NanoLedger.Error

/-!
# Sinks

A sink takes the records of a pass one by one and is told when they have ended. Taking a record may
fail; what the sink got before stays. `Sink.collect` keeps the records, and `Sink.jsonLines` writes
one JSON object to a line of a text.

What is behind a sink may keep it waiting, so taking a record is a computation of some monad
(`SinkM`). An output takes bytes in attempts, which may take fewer than were offered or fail
(`Output`). Writing all of some bytes makes attempt after attempt (`Output.writeAll`), and since one
that was interrupted is made again, this need not come to an end. It is told by the number of
attempts that it may make: where no number is enough, it goes on for ever. `SinkM.jsonLines` writes
the lines of JSON objects to an output.
-/

namespace NanoLedger

/-- How records go into a state of type `σ`, in computations of a monad. -/
structure SinkM (m : Type → Type) (σ α : Type) where
  write : α → σ → m (σ × Except LedgerError Unit)
  finish : σ → m (σ × Except LedgerError Unit)

/-- A sink that always comes back. -/
abbrev Sink (σ α : Type) : Type := SinkM Id σ α

/-- The sink that keeps its records in order. -/
def Sink.collect (α : Type) : Sink (Array α) α where
  write r rs := (rs.push r, .ok ())
  finish rs := (rs, .ok ())

/-! ## Lines of a text -/

/-- A text that is being written. -/
structure Writer where
  text : String := ""

/-- A writer of lines and the number of lines that are complete. -/
structure JsonLines where
  writer : Writer := {}
  written : Nat := 0

/-- The sink that writes the JSON text of each record to a line of its own. -/
def Sink.jsonLines {α : Type} (json : α → Json) : Sink JsonLines α where
  write r s :=
    ({ writer := { text := s.writer.text ++ (json r).render ++ "\n" }, written := s.written + 1 },
      .ok ())
  finish s := (s, .ok ())

/-! ## Lines of an output -/

/-- What an output does. An attempt to write some bytes takes the first ones and says how many. -/
structure Output (ω : Type) where
  attempt : Bytes → ω → ω × Except IoFault Nat
  flush : ω → ω × Except IoFault Unit

namespace Output

variable {ω : Type}

/-- The fault of an output that takes nothing. -/
def takenNothing : IoFault := { text := "failed to write whole buffer", kind := .writeZero }

/-- Write all of some bytes. Nothing comes of it if this takes more than the given number of
attempts. -/
def writeAll (out : Output ω) (attempts : Nat) (bytes : Bytes) (w : ω) :
    Option (ω × Except IoFault Unit) :=
  if bytes.isEmpty then some (w, .ok ())
  else
    match attempts with
    | 0 => none
    | attempts + 1 =>
      match out.attempt bytes w with
      | (w, .ok 0) => some (w, .error takenNothing)
      | (w, .ok (n + 1)) => writeAll out attempts (bytes.drop (n + 1)) w
      | (w, .error fault) =>
        if fault.kind = .interrupted then writeAll out attempts bytes w
        else some (w, .error fault)

/-- Write pieces one after another, each in a number of attempts at most, until one fails. -/
def writePieces (out : Output ω) (attempts : Nat) :
    List Bytes → ω → Option (ω × Except IoFault Unit)
  | [], w => return (w, .ok ())
  | piece :: pieces, w => do
    match ← out.writeAll attempts piece w with
    | (w, .ok ()) => writePieces out attempts pieces w
    | (w, .error fault) => return (w, .error fault)

end Output

/-- The byte that ends a line. -/
def Text.newline : UInt8 := 10

/-- An output of lines and the number of lines that are complete. -/
structure OutputLines (ω : Type) where
  output : ω
  written : Nat := 0

/-- The sink that writes each record to a line of an output, the JSON text of the record in pieces.
A fault inside the record is one of its JSON text. Each piece is written in one attempt and a number
of further ones at most. -/
def SinkM.jsonLines {ω α : Type} (out : Output ω) (further : Nat) (pieces : Json → List Bytes)
    (json : α → Json) : SinkM Option (OutputLines ω) α where
  write r s := do
    match ← out.writePieces (further + 1) (pieces (json r)) s.output with
    | (output, .error fault) => return ({ s with output }, .error (.ofJson fault))
    | (output, .ok ()) =>
      match ← out.writeAll (further + 1) [Text.newline] output with
      | (output, .error fault) => return ({ s with output }, .error (.ofIo fault))
      | (output, .ok ()) => return ({ output, written := s.written + 1 }, .ok ())
  finish s :=
    match out.flush s.output with
    | (output, .ok ()) => return ({ s with output }, .ok ())
    | (output, .error fault) => return ({ s with output }, .error (.ofIo fault))

/-- The bytes that an output has taken. It may have room for some more only, and flushing it may
fail. -/
structure Buffer where
  taken : Bytes := []
  /-- how many more bytes fit, and the faults of the attempts after them, one after another -/
  room : Option (Nat × (Nat → IoFault)) := none
  flushFault : Option IoFault := none

/-- The output that keeps what it takes. An attempt takes what fits. -/
def Buffer.output : Output Buffer where
  attempt bytes b :=
    match b.room with
    | none => ({ b with taken := b.taken ++ bytes }, .ok bytes.length)
    | some (0, faults) => ({ b with room := some (0, fun n => faults (n + 1)) }, .error (faults 0))
    | some (room, faults) =>
      let part := bytes.take room
      ({ b with taken := b.taken ++ part, room := some (room - part.length, faults) },
        .ok part.length)
  flush b :=
    match b.flushFault with
    | none => (b, .ok ())
    | some fault => (b, .error fault)

end NanoLedger
