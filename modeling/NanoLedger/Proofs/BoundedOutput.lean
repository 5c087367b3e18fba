import NanoLedger.Proofs.Failures
import NanoLedger.Proofs.RecordText
import NanoLedger.Proofs.TextBytes

/-!
# Exports into an output that runs out of room

An output with room for a limited number of bytes takes what fits, and every attempt to write more
fails. An export into it leaves the beginning of the bytes that it would write without a limit, cut
at the first one for which there is no room, and ends there: the record in whose line that byte lies
is the last one that the sink was handed. The fault is one of the JSON text, unless all of it fits
and only the end of its line does not (`Pass.exportInto_bounded`). An attempt that is interrupted is
made again, so the fault is the first one that is no interruption (`Settled`). If there is none, the
export does not come back: no number of attempts is enough.

A buffer that takes bytes is one to which they are added (`Buffer.add`), and it makes no difference
in how many pieces they come (`Buffer.writePieces_of_fits`, `Buffer.writePieces_of_cut`). A sink is
handed the records of a pass one by one. So what an export does is what the sink does with the first
record that it cannot write (`Pass.exportInto_eq_write`), or at its end if there is none
(`Pass.exportInto_eq_finish`). Which record that is can be told from the lengths of the lines
(`JsonLines.exists_cut`).
-/

namespace NanoLedger

/-! ## Writing to an output -/

namespace Output

variable {ω : Type} {out : Output ω} {bytes : Bytes} {w w' : ω} {fault : IoFault} {n : Nat}

theorem writeAll_nil (n : Nat) : out.writeAll n [] w = some (w, .ok ()) := by
  cases n <;> rfl

theorem writeAll_of_taken {k : Nat} (hbytes : bytes ≠ [])
    (h : out.attempt bytes w = (w', .ok (k + 1))) :
    out.writeAll (n + 1) bytes w = out.writeAll n (bytes.drop (k + 1)) w' := by
  rw [writeAll, if_neg (by simpa using hbytes), h]

theorem writeAll_of_fault (hbytes : bytes ≠ []) (h : out.attempt bytes w = (w', .error fault))
    (hkind : fault.kind ≠ .interrupted) :
    out.writeAll (n + 1) bytes w = some (w', .error fault) := by
  rw [writeAll, if_neg (by simpa using hbytes), h]
  exact if_neg hkind

theorem writeAll_of_interrupted (hbytes : bytes ≠ [])
    (h : out.attempt bytes w = (w', .error fault)) (hkind : fault.kind = .interrupted) :
    out.writeAll (n + 1) bytes w = out.writeAll n bytes w' := by
  rw [writeAll, if_neg (by simpa using hbytes), h]
  exact if_pos hkind

end Output

/-- What attempts come to that have one fault after another. The first fault that is no interruption
is passed on, if it is one of the first `n`. If all are interruptions, for ever, none is. -/
def Settled (n : Nat) (faults : Nat → IoFault) : Option IoFault → Prop
  | some fault => ∃ k < n, faults k = fault ∧ fault.kind ≠ .interrupted ∧
      ∀ i < k, (faults i).kind = .interrupted
  | none => ∀ i, (faults i).kind = .interrupted

theorem Settled.mono {m n : Nat} {faults : Nat → IoFault} {fault? : Option IoFault}
    (h : Settled m faults fault?) (hle : m ≤ n) : Settled n faults fault? := by
  cases fault? with
  | none => exact h
  | some fault =>
    obtain ⟨k, hk, h⟩ := h
    exact ⟨k, Nat.lt_of_lt_of_le hk hle, h⟩

/-- The first fault is an interruption and the others decide, or it is the one passed on. -/
theorem Settled.cases {n : Nat} {faults : Nat → IoFault} {fault? : Option IoFault}
    (h : Settled (n + 1) faults fault?) :
    ((faults 0).kind = .interrupted ∧ Settled n (fun i => faults (i + 1)) fault?) ∨
      ((faults 0).kind ≠ .interrupted ∧ fault? = some (faults 0)) := by
  cases fault? with
  | none => exact .inl ⟨h 0, fun i => h (i + 1)⟩
  | some fault =>
    obtain ⟨k, hk, rfl, hkind, hbefore⟩ := h
    cases k with
    | zero => exact .inr ⟨hkind, rfl⟩
    | succ k =>
      exact .inl ⟨hbefore 0 (Nat.succ_pos k), k, Nat.lt_of_succ_lt_succ hk, rfl, hkind,
        fun i hi => hbefore (i + 1) (Nat.succ_lt_succ hi)⟩

namespace Buffer

variable {b : Buffer} {room n : Nat} {faults : Nat → IoFault} {fault? : Option IoFault}
  {bytes : Bytes}

/-- Whether a number of bytes fits. -/
def Fits (b : Buffer) (n : Nat) : Prop := ∀ r ∈ b.room, n ≤ r.1

/-- The buffer when it has taken some more bytes. -/
def add (b : Buffer) (bytes : Bytes) : Buffer :=
  { b with taken := b.taken ++ bytes, room := b.room.map fun r => (r.1 - bytes.length, r.2) }

@[simp] theorem add_nil (b : Buffer) : b.add [] = b := by
  obtain ⟨taken, room, flushFault⟩ := b
  cases room <;> simp [add]

theorem add_add (b : Buffer) (bytes bytes' : Bytes) :
    (b.add bytes).add bytes' = b.add (bytes ++ bytes') := by
  obtain ⟨taken, room, flushFault⟩ := b
  cases room <;> simp [add, Nat.sub_sub]

theorem room_add (hroom : b.room = some (room, faults)) (bytes : Bytes) :
    (b.add bytes).room = some (room - bytes.length, faults) := by
  rw [add, hroom]
  rfl

theorem fits_add (h : b.Fits (bytes.length + n)) : (b.add bytes).Fits n := by
  intro r hr
  obtain ⟨r', hr', rfl⟩ := Option.map_eq_some_iff.1 hr
  exact Nat.le_sub_of_add_le' (h r' hr')

theorem fits_of_room (hroom : b.room = some (room, faults)) (h : n ≤ room) : b.Fits n := by
  intro r hr
  cases hroom.symm.trans hr
  exact h

theorem Fits.mono {m : Nat} (h : b.Fits n) (hle : m ≤ n) : b.Fits m :=
  fun r hr => Nat.le_trans hle (h r hr)

/-- An attempt takes as many bytes as fit. -/
theorem attempt_of_room (hroom : b.room = some (room + 1, faults)) (bytes : Bytes) :
    output.attempt bytes b =
      (b.add (bytes.take (room + 1)), .ok (bytes.take (room + 1)).length) := by
  obtain ⟨taken, _, flushFault⟩ := b
  cases hroom
  rfl

theorem attempt_of_fits (hbytes : bytes ≠ []) (h : b.Fits bytes.length) :
    output.attempt bytes b = (b.add bytes, .ok bytes.length) := by
  have hpos := List.length_pos_iff.2 hbytes
  match hroom : b.room with
  | none =>
    obtain ⟨taken, _, flushFault⟩ := b
    cases hroom
    rfl
  | some (0, faults) => exact absurd (h _ hroom) (Nat.not_le.2 hpos)
  | some (room + 1, faults) => rw [attempt_of_room hroom, List.take_of_length_le (h _ hroom)]

theorem writeAll_of_fits (h : b.Fits bytes.length) (k : Nat) :
    output.writeAll (k + 1) bytes b = some (b.add bytes, .ok ()) := by
  match bytes with
  | [] => rw [Output.writeAll_nil, add_nil]
  | byte :: bytes =>
    have hne : byte :: bytes ≠ [] := List.cons_ne_nil _ _
    rw [Output.writeAll_of_taken hne (attempt_of_fits hne h), List.drop_succ_cons, List.drop_length,
      Output.writeAll_nil]

/-- What comes of bytes that do not fit: those that fit are taken, and then every attempt fails. -/
def Cuts (b : Buffer) (bytes : Bytes) (fault? : Option IoFault)
    (result : Option (Buffer × Except IoFault Unit)) : Prop :=
  ∃ b' : Buffer, b'.taken = b.taken ++ bytes ∧ result = fault?.map fun fault => (b', .error fault)

theorem cuts_add {bytes' : Bytes} {result : Option (Buffer × Except IoFault Unit)} :
    (b.add bytes).Cuts bytes' fault? result ↔ b.Cuts (bytes ++ bytes') fault? result := by
  rw [Cuts, Cuts, ← List.append_assoc]
  rfl

theorem attempt_of_full (hroom : b.room = some (0, faults)) (bytes : Bytes) :
    output.attempt bytes b =
      ({ b with room := some (0, fun n => faults (n + 1)) }, .error (faults 0)) := by
  obtain ⟨taken, _, flushFault⟩ := b
  cases hroom
  rfl

/-- Where nothing fits, as many attempts are enough as there are faults up to the one passed on. -/
theorem writeAll_of_full (hroom : b.room = some (0, faults)) (hbytes : bytes ≠ [])
    (hfaults : Settled n faults fault?) : b.Cuts [] fault? (output.writeAll n bytes b) := by
  induction n generalizing b faults with
  | zero =>
    cases fault? with
    | none => exact ⟨b, (List.append_nil _).symm, by simpa [Output.writeAll] using hbytes⟩
    | some fault =>
      obtain ⟨k, hk, -⟩ := hfaults
      cases hk
  | succ n ih =>
    have hattempt := attempt_of_full hroom bytes
    rcases hfaults.cases with ⟨hkind, hrest⟩ | ⟨hkind, rfl⟩
    · rw [Output.writeAll_of_interrupted hbytes hattempt hkind]
      exact ih (b := { b with room := some (0, fun n => faults (n + 1)) }) rfl hrest
    · refine ⟨{ b with room := some (0, fun n => faults (n + 1)) }, (List.append_nil _).symm, ?_⟩
      exact Output.writeAll_of_fault hbytes hattempt hkind

/-- Where some bytes fit, an attempt takes them, and it takes the others to fail. -/
theorem writeAll_of_cut (hroom : b.room = some (room, faults)) (h : room < bytes.length)
    (hfaults : Settled n faults fault?) :
    b.Cuts (bytes.take room) fault? (output.writeAll (n + 1) bytes b) := by
  have hbytes : bytes ≠ [] := List.length_pos_iff.1 (Nat.zero_lt_of_lt h)
  cases room with
  | zero => exact writeAll_of_full hroom hbytes (hfaults.mono (Nat.le_succ n))
  | succ room =>
    have hlength : (bytes.take (room + 1)).length = room + 1 :=
      List.length_take_of_le (Nat.le_of_lt h)
    have hattempt := attempt_of_room hroom bytes
    have hfull := room_add hroom (bytes.take (room + 1))
    rw [hlength] at hattempt
    rw [hlength, Nat.sub_self] at hfull
    have hrest : bytes.drop (room + 1) ≠ [] := fun heq =>
      absurd (List.drop_eq_nil_iff.1 heq) (Nat.not_le.2 h)
    have hcut := cuts_add.1 (writeAll_of_full hfull hrest hfaults)
    rw [List.append_nil] at hcut
    rwa [Output.writeAll_of_taken hbytes hattempt]

/-- Pieces that fit together are written. -/
theorem writePieces_of_fits {pieces : List Bytes} (h : b.Fits pieces.flatten.length) (k : Nat) :
    output.writePieces (k + 1) pieces b = some (b.add pieces.flatten, .ok ()) := by
  induction pieces generalizing b with
  | nil => rw [List.flatten_nil, add_nil]; rfl
  | cons piece pieces ih =>
    rw [List.flatten_cons, List.length_append] at h
    have hfirst : b.Fits piece.length := h.mono (Nat.le_add_right _ _)
    rw [Output.writePieces, writeAll_of_fits hfirst, List.flatten_cons, ← add_add]
    exact ih (fits_add h)

/-- Pieces that do not fit together are cut where they would be as one. -/
theorem writePieces_of_cut {pieces : List Bytes} (hroom : b.room = some (room, faults))
    (h : room < pieces.flatten.length) (hfaults : Settled n faults fault?) :
    b.Cuts (pieces.flatten.take room) fault? (output.writePieces (n + 1) pieces b) := by
  induction pieces generalizing b room with
  | nil => cases h
  | cons piece pieces ih =>
    rw [List.flatten_cons, List.length_append] at h
    rw [Output.writePieces, List.flatten_cons]
    rcases Nat.lt_or_ge room piece.length with hlt | hge
    · obtain ⟨b', htaken, hwrite⟩ := writeAll_of_cut hroom hlt hfaults
      rw [List.take_append_of_le_length (Nat.le_of_lt hlt), hwrite]
      refine ⟨b', htaken, ?_⟩
      cases fault? <;> rfl
    · have hfits : b.Fits piece.length := fits_of_room hroom hge
      have hrest : room - piece.length < pieces.flatten.length := by omega
      rw [writeAll_of_fits hfits, List.take_append, List.take_of_length_le hge]
      exact cuts_add.1 (ih (room_add hroom piece) hrest)

end Buffer

/-! ## The bytes of lines -/

/-- The text of a value as bytes. -/
def Json.utf8 (x : Json) : Bytes := Text.utf8 x.render

theorem Json.newline_not_mem_utf8 (x : Json) : Text.newline ∉ x.utf8 := by
  intro h
  have hprintable : ∀ c ∈ x.render.toList, 32 ≤ c.toNat := by
    rw [render, String.toList_ofList]
    exact x.printable_chars
  exact absurd (Text.printable_utf8 hprintable _ h) (by decide)

namespace JsonLines

variable {α : Type} (json : α → Json)

/-- The lines of records as bytes. -/
def bytes (rs : List α) : Bytes := Text.utf8 (text json rs)

theorem bytes_nil : bytes json [] = [] := rfl

theorem bytes_cons (r : α) (rs : List α) :
    bytes json (r :: rs) = (json r).utf8 ++ Text.newline :: bytes json rs := by
  rw [bytes, text_cons, Text.utf8_append, Text.utf8_append, List.append_assoc]
  rfl

theorem bytes_append (rs rs' : List α) :
    bytes json (rs ++ rs') = bytes json rs ++ bytes json rs' := by
  rw [bytes, text_append, Text.utf8_append]
  rfl

/-- The lines of records have as many ends as there are records. -/
theorem count_newline_bytes (rs : List α) : (bytes json rs).count Text.newline = rs.length := by
  induction rs with
  | nil => rfl
  | cons r rs ih =>
    rw [bytes_cons, List.count_append, List.count_cons_self, ih,
      List.count_eq_zero.2 (json r).newline_not_mem_utf8, Nat.zero_add, List.length_cons]

/-- Each byte lies in the line of a record. -/
theorem exists_cut {rs : List α} {n : Nat} (h : n < (bytes json rs).length) :
    ∃ before r after, rs = before ++ r :: after ∧ (bytes json before).length ≤ n ∧
      n ≤ (bytes json before).length + (json r).utf8.length := by
  induction rs generalizing n with
  | nil => cases h
  | cons r rs ih =>
    rcases Nat.lt_or_ge (json r).utf8.length n with hlt | hle
    · rw [bytes_cons, List.length_append, List.length_cons] at h
      have hrest : n - ((json r).utf8.length + 1) < (bytes json rs).length := by omega
      obtain ⟨before, r', after, rfl, hbefore, hcut⟩ := ih hrest
      refine ⟨r :: before, r', after, rfl, ?_, ?_⟩
      · rw [bytes_cons, List.length_append, List.length_cons]
        omega
      · rw [bytes_cons, List.length_append, List.length_cons]
        omega
    · exact ⟨[], r, rs, rfl, Nat.zero_le _, by simpa [bytes_nil] using hle⟩

variable (before after : List α) (r : α) {n : Nat}

/-- What stands in front of a byte in the line of a record. -/
theorem take_bytes (h : n ≤ (json r).utf8.length) :
    (bytes json (before ++ r :: after)).take ((bytes json before).length + n) =
      bytes json before ++ (json r).utf8.take n := by
  rw [bytes_append, bytes_cons, List.take_length_add_append, List.take_append_of_le_length h]

/-- A byte in the line of a record is its end if it stands behind the text of the record. -/
theorem getElem?_bytes (h : n ≤ (json r).utf8.length) :
    (bytes json (before ++ r :: after))[(bytes json before).length + n]? = some Text.newline ↔
      n = (json r).utf8.length := by
  rw [bytes_append, bytes_cons, List.getElem?_append_right (Nat.le_add_right _ _),
    Nat.add_sub_cancel_left]
  rcases Nat.lt_or_eq_of_le h with hlt | rfl
  · rw [List.getElem?_append_left hlt]
    exact ⟨fun hget => absurd (List.mem_of_getElem? hget) (json r).newline_not_mem_utf8,
      fun heq => absurd heq (Nat.ne_of_lt hlt)⟩
  · simp

end JsonLines

namespace SinkM

variable {α : Type} {json : α → Json} {pieces : Json → List Bytes} {b : Buffer}
  {written further : Nat}

section

variable (hpieces : ∀ x, (pieces x).flatten = x.utf8)
include hpieces

/-- A line for which there is room is written. -/
theorem write_of_fits {r : α} (h : b.Fits ((json r).utf8.length + 1)) :
    (jsonLines Buffer.output further pieces json).write r ⟨b, written⟩ =
      some (⟨b.add ((json r).utf8 ++ [Text.newline]), written + 1⟩, .ok ()) := by
  have htext : b.Fits (pieces (json r)).flatten.length := by
    rw [hpieces]
    exact h.mono (Nat.le_succ _)
  have hend : (b.add (json r).utf8).Fits [Text.newline].length := Buffer.fits_add h
  simp only [jsonLines, Buffer.writePieces_of_fits htext, hpieces, Option.bind_eq_bind,
    Option.bind_some, Buffer.writeAll_of_fits hend, Buffer.add_add]
  rfl

/-- A line for which there is no room is cut, and the fault is one of the JSON text unless only the
end of the line does not fit. -/
theorem write_of_cut {r : α} {room : Nat} {faults : Nat → IoFault} {fault? : Option IoFault}
    (hroom : b.room = some (room, faults)) (h : room ≤ (json r).utf8.length)
    (hfaults : Settled further faults fault?) :
    ∃ b' : Buffer, b'.taken = b.taken ++ (json r).utf8.take room ∧
      (jsonLines Buffer.output further pieces json).write r ⟨b, written⟩ =
        fault?.map fun fault => (⟨b', written⟩,
          .error (if room = (json r).utf8.length then .ofIo fault else .ofJson fault)) := by
  rcases Nat.lt_or_ge room (json r).utf8.length with hlt | hge
  · have htext : room < (pieces (json r)).flatten.length := by rwa [hpieces]
    obtain ⟨b', htaken, hwrite⟩ := Buffer.writePieces_of_cut hroom htext hfaults
    rw [hpieces] at htaken
    refine ⟨b', htaken, ?_⟩
    simp only [jsonLines, hwrite, if_neg (Nat.ne_of_lt hlt)]
    cases fault? <;> rfl
  · obtain rfl := Nat.le_antisymm h hge
    have htext : b.Fits (pieces (json r)).flatten.length := by
      rw [hpieces]
      exact Buffer.fits_of_room hroom (Nat.le_refl _)
    have hfull := Buffer.room_add hroom (json r).utf8
    rw [Nat.sub_self] at hfull
    have hend : [Text.newline] ≠ [] := List.cons_ne_nil _ _
    obtain ⟨b', htaken, hwrite⟩ :=
      Buffer.writeAll_of_full hfull hend (hfaults.mono (Nat.le_succ further))
    rw [List.append_nil] at htaken
    refine ⟨b', by rw [List.take_length]; exact htaken, ?_⟩
    simp only [jsonLines, Buffer.writePieces_of_fits htext, hpieces, Option.bind_eq_bind,
      Option.bind_some, hwrite, if_true]
    cases fault? <;> rfl

/-- Lines for which there is room are written one after another. -/
theorem writes_of_fits {rs : List α} (h : b.Fits (JsonLines.bytes json rs).length)
    (further written : Nat) :
    (jsonLines Buffer.output further pieces json).Writes rs ⟨b, written⟩
      ⟨b.add (JsonLines.bytes json rs), written + rs.length⟩ := by
  induction rs generalizing b written with
  | nil =>
    rw [JsonLines.bytes_nil, Buffer.add_nil]
    rfl
  | cons r rs ih =>
    have hsplit : JsonLines.bytes json (r :: rs) =
        ((json r).utf8 ++ [Text.newline]) ++ JsonLines.bytes json rs := by
      rw [JsonLines.bytes_cons, List.append_assoc]
      rfl
    rw [hsplit, List.length_append] at h
    have hline : b.Fits ((json r).utf8.length + 1) :=
      h.mono (by rw [List.length_append]; exact Nat.le_add_right _ _)
    have hrest := ih (Buffer.fits_add h) (written + 1)
    rw [Buffer.add_add, ← hsplit, Nat.add_assoc, Nat.add_comm 1] at hrest
    exact ⟨_, write_of_fits hpieces hline, hrest⟩

end

end SinkM

/-! ## Exports of scans that meet no error -/

namespace Pass

section

variable {σ α : Type} {m : Type → Type} [Monad m] [LawfulMonad m] {sink : SinkM m σ α} {p : Pass α}
  {b : Budget} {s mid : σ} {before after : List α} {r : α}

/-- Behind records that a sink has written it is handed the next one, and if it fails there it is
handed no other. -/
theorem drain_eq_write {n : Nat} (hrun : p.progress = .running)
    (hn : (p.prospect b).items.length < n)
    (hrecords : Item.records (p.prospect b).items = before ++ r :: after)
    (hw : sink.Writes before s mid) :
    ∃ (q : Pass α) (b' : Budget) (handed : List (Item α)) (goOn : σ → m (Drained σ α)),
      Item.records handed = before ++ [r] ∧
      p.drain sink n b s = do
        match ← sink.write r mid with
        | (t, .ok ()) => goOn t
        | (t, .error e) => return ⟨q, b', t, handed, .error e⟩ := by
  induction n generalizing p b s before with
  | zero => omega
  | succ n ih =>
    match hitems : (p.prospect b).items with
    | [] =>
      rw [hitems] at hrecords
      cases before <;> cases hrecords
    | item :: items =>
      obtain ⟨hnext, hrun', -, -, hprospect⟩ := nextShared_cons hrun hitems
      rw [hitems] at hn hrecords
      have hn' : ((p.advance.counting item).prospect (b.after [item])).items.length < n := by
        rw [hprospect]
        exact Nat.lt_of_succ_lt_succ hn
      -- what is drained behind an item has the item in front
      have behind {before : List α} {s : σ} (hrest : Item.records items = before ++ r :: after)
          (hw : sink.Writes before s mid) :
          ∃ (q : Pass α) (b' : Budget) (handed : List (Item α)) (goOn : σ → m (Drained σ α)),
            Item.records handed = before ++ [r] ∧
            (do return ((← (p.advance.counting item).drain sink n (b.after [item]) s).cons item)) =
              do
                match ← sink.write r mid with
                | (t, .ok ()) => goOn t
                | (t, .error e) => return ⟨q, b', t, item :: handed, .error e⟩ := by
        obtain ⟨q, b', handed, goOn, hhanded, hdrain⟩ :=
          ih hrun' hn' (by rw [hprospect]; exact hrest) hw
        refine ⟨q, b', handed, fun t => do return (← goOn t).cons item, hhanded, ?_⟩
        rw [hdrain, bind_assoc]
        refine congrArg _ (funext fun result => ?_)
        obtain ⟨t, _ | _⟩ := result
        · exact pure_bind _ _
        · rfl
      cases item with
      | failure f =>
        obtain ⟨q, b', handed, goOn, hhanded, hdrain⟩ := behind hrecords hw
        refine ⟨q, b', .failure f :: handed, goOn, hhanded, ?_⟩
        rw [drain, hnext]
        exact hdrain
      | record r' =>
        cases before with
        | nil =>
          cases hrecords
          cases hw
          refine ⟨p.advance.counting (.record r), b.after [.record r], [.record r],
            fun t => do return (← (p.advance.counting (.record r)).drain sink n
              (b.after [.record r]) t).cons (.record r), rfl, ?_⟩
          rewrite [drain, hnext]
          rfl
        | cons r₀ before =>
          obtain ⟨rfl, hrest⟩ := List.cons.inj hrecords
          obtain ⟨mid', hwrite, hw⟩ := hw
          obtain ⟨q, b', handed, goOn, hhanded, hdrain⟩ := behind hrest hw
          refine ⟨q, b', .record r' :: handed, goOn, congrArg (r' :: ·) hhanded, ?_⟩
          rw [drain, hnext]
          simp only [hwrite, pure_bind]
          exact hdrain

theorem exportInto_eq_write (hrun : p.progress = .running)
    (hrecords : Item.records (p.prospect b).items = before ++ r :: after)
    (hw : sink.Writes before s mid) :
    ∃ (b' : Budget) (handed : List (Item α)) (goOn : σ → m (ExportReport σ α)),
      Item.records handed = before ++ [r] ∧
      p.exportInto sink s b = do
        match ← sink.write r mid with
        | (t, .ok ()) => goOn t
        | (t, .error e) => return ⟨t, handed, b', .error e⟩ := by
  obtain ⟨q, b', handed, goOn, hhanded, hdrain⟩ :=
    drain_eq_write hrun (Nat.lt_succ_of_le (length_prospect_le p b)) hrecords hw
  refine ⟨b', handed, fun t => goOn t >>= Drained.finish sink, hhanded, ?_⟩
  rw [exportInto, show p.enough = p.rest.length.succ from rfl, hdrain, bind_assoc]
  refine congrArg _ (funext fun result => ?_)
  obtain ⟨t, _ | _⟩ := result
  · exact pure_bind _ _
  · rfl

end

/-- A pass that no error of the store ends. Its walk has none, and the store answers every lookup,
the empty key left out, which no record refers to. The pass may be under way, or done. -/
structure ErrorFree {kind : RecordKind} (p : Pass kind.Record) (s : Store) : Prop where
  read : p.read = kind.read s
  answers : ∀ t key, key ≠ [] → ∃ v, s.get t key = .ok v
  rest : ∃ es : List Entry, p.rest = es.map .ok
  progress : ∀ e, p.progress ≠ .failed e

section

variable {kind : RecordKind} {p : Pass kind.Record} {s : Store}

/-- A pass that begins over a store without errors, anywhere and in any range, meets none. -/
theorem errorFree_inRange (hget : ∀ t key, key ≠ [] → ∃ v, s.get t key = .ok v)
    {start bound : Option Bytes} {limit : Option Nat} {strict : Bool} {es : List Entry}
    (hwalk : s.walk kind.table start = .ok (es.map .ok))
    (hp : inRange kind s start bound limit strict = .ok p) : p.ErrorFree s := by
  have heq : p = along kind s (es.map .ok) bound limit := by
    rw [inRange, hwalk] at hp
    cases strict <;> cases start <;> cases es <;> cases hp <;> rfl
  rw [heq]
  exact ⟨rfl, hget, ⟨es, rfl⟩, fun _ hfailed => by cases hfailed⟩

theorem ErrorFree.failure_prospect (hp : p.ErrorFree s) (b : Budget) :
    (p.prospect b).failure = none := by
  obtain ⟨es, hrest⟩ := hp.rest
  have hread : ∀ e ∈ es, SkipsOnly (kind.read s e) := fun e _ =>
    kind.skipsOnly_read <| Store.fault?_eq_none.2 fun q hq =>
      hp.answers q.1 q.2 (RecordKind.ne_nil_of_mem_lookups hq)
  rw [prospect, outlook, hrest, hp.read, Outlook.ofWalk_entries hread, Outlook.cut_of_no_failure,
    Outlook.cut_of_no_failure]

/-- The items that a pass will still give: those in prospect, unless it has stopped. -/
def upcoming {α : Type} (p : Pass α) (b : Budget) : List (Item α) :=
  if p.progress = .running then (p.prospect b).items else []

section

variable {m : Type → Type} [Monad m] [LawfulMonad m] {σ : Type} {sink : SinkM m σ kind.Record}
  {init mid : σ} {b : Budget}

/-- If the sink can write all upcoming records it is finished, and the export has counted them. -/
theorem ErrorFree.exportInto_eq_finish (hp : p.ErrorFree s)
    (hw : sink.Writes (Item.records (p.upcoming b)) init mid) :
    p.exportInto sink init b = do
      match ← sink.finish mid with
      | (t, .error e) => return ⟨t, p.upcoming b, b.after (p.upcoming b), .error e⟩
      | (t, .ok ()) =>
        return ⟨t, p.upcoming b, b.after (p.upcoming b),
          .ok (p.counts + Counts.ofItems (p.upcoming b))⟩ := by
  rw [upcoming] at hw ⊢
  split at hw
  · next hrun =>
    have hexport := Pass.exportInto_eq_finish hrun hw
    rw [hp.failure_prospect] at hexport
    rw [if_pos hrun]
    exact hexport
  · next hrun =>
    have hfinish : p.finish = .ok p.counts := by
      cases hprogress : p.progress with
      | running => exact absurd hprogress hrun
      | done => rw [finish, hprogress]
      | failed e => exact absurd hprogress (hp.progress e)
    have hdrain : p.drain sink p.enough b init = pure ⟨p, b, init, [], .ok ()⟩ := by
      rw [show p.enough = p.rest.length.succ from rfl, drain, nextShared,
        isOver_of_stopped hrun b.isLeft]
    rw [if_neg hrun, exportInto, hdrain, show mid = init from hw, pure_bind, Budget.after_nil]
    simp only [Drained.finish, hfinish]
    rfl

/-- If the sink can write the first upcoming records, the next one is handed to it, and if it fails
there, no other. -/
theorem exportInto_eq_write_of_upcoming {before after : List kind.Record} {r : kind.Record}
    (hrecords : Item.records (p.upcoming b) = before ++ r :: after)
    (hw : sink.Writes before init mid) :
    ∃ (b' : Budget) (handed : List (Item kind.Record)) (goOn : σ → m (ExportReport σ kind.Record)),
      Item.records handed = before ++ [r] ∧
      p.exportInto sink init b = do
        match ← sink.write r mid with
        | (t, .ok ()) => goOn t
        | (t, .error e) => return ⟨t, handed, b', .error e⟩ := by
  rw [upcoming] at hrecords
  split at hrecords
  · next hrun => exact exportInto_eq_write hrun hrecords hw
  · cases before <;> cases hrecords

end

end

end Pass

/-! ## Exports into limited room -/

section

variable {kind : ExportKind} {p : Pass kind.kind.Record} {s : Store} {pieces : Json → List Bytes}

/-- What an export that has written all records reports when it has flushed its output. -/
def Buffer.flushed (output : Buffer) (counts : Counts) : Except LedgerError Counts :=
  match output.flushFault with
  | none => .ok counts
  | some fault => .error (.ofIo fault)

/-- The bytes that an export writes to an output without a limit. -/
def Pass.lineBytes (p : Pass kind.kind.Record) (b : Budget) : Bytes :=
  JsonLines.bytes kind.json (Item.records (p.upcoming b))

theorem Pass.ErrorFree.exportTo_jsonLines (hp : p.ErrorFree s) (b : Budget) :
    Text.utf8 (p.exportTo (.jsonLines kind.json) {} b).sink.writer.text = p.lineBytes b := by
  obtain ⟨mid, hw, hf⟩ := Sink.holds_jsonLines kind.json (Item.records (p.upcoming b))
  have hexport := hp.exportInto_eq_finish hw
  rw [hf] at hexport
  have heq := congrArg ExportReport.sink hexport
  exact congrArg (fun lines => Text.utf8 lines.writer.text) heq

/-- With room for all lines the export writes them and flushes the output. -/
theorem Pass.ErrorFree.exportInto_of_fits (hp : p.ErrorFree s)
    (hpieces : ∀ x, (pieces x).flatten = x.utf8) (further : Nat) (b : Budget) (output : Buffer)
    (hfits : output.Fits (p.lineBytes b).length) :
    p.exportInto (.jsonLines Buffer.output further pieces kind.json) { output } b =
      some ⟨⟨output.add (p.lineBytes b), (p.lineBytes b).count Text.newline⟩, p.upcoming b,
        b.after (p.upcoming b), output.flushed (p.counts + Counts.ofItems (p.upcoming b))⟩ := by
  have hw := SinkM.writes_of_fits hpieces hfits further 0
  refine (hp.exportInto_eq_finish hw).trans ?_
  rw [lineBytes, JsonLines.count_newline_bytes, Nat.zero_add, Buffer.flushed]
  simp only [SinkM.jsonLines, Buffer.output, Buffer.add]
  cases output.flushFault <;> rfl

/-- Without room for all lines the export takes those that fit and ends in the line of a record. -/
theorem Pass.exportInto_of_cut (hpieces : ∀ x, (pieces x).flatten = x.utf8) {b : Budget}
    {room : Nat} (hlt : room < (p.lineBytes b).length) (output : Buffer) {faults : Nat → IoFault}
    (hroom : output.room = some (room, faults)) {further : Nat} {fault? : Option IoFault}
    (hfaults : Settled further faults fault?) :
    let taken := (p.lineBytes b).take room
    let cause (fault : IoFault) :=
      if (p.lineBytes b)[room]? = some Text.newline then
        if fault.kind = .unexpectedEof then Cause.truncatedRecord else .io fault
      else .json fault
    ∃ (before after : List kind.kind.Record) (r : kind.kind.Record)
      (handed : List (Item kind.kind.Record)) (output' : Buffer) (b' : Budget),
      Item.records (p.upcoming b) = before ++ r :: after ∧
      Item.records handed = before ++ [r] ∧ (JsonLines.bytes kind.json before).length ≤ room ∧
      room ≤ (JsonLines.bytes kind.json before).length + (kind.json r).utf8.length ∧
      output'.taken = output.taken ++ taken ∧
      p.exportInto (.jsonLines Buffer.output further pieces kind.json) { output } b =
        fault?.map fun fault => ⟨⟨output', taken.count Text.newline⟩, handed, b',
          .error { cause := cause fault }⟩ := by
  obtain ⟨before, r, after, hrecords, hbefore, hcut⟩ := JsonLines.exists_cut kind.json hlt
  obtain ⟨n, rfl⟩ := Nat.exists_eq_add_of_le hbefore
  have hn : n ≤ (kind.json r).utf8.length := Nat.le_of_add_le_add_left hcut
  have hfits : output.Fits (JsonLines.bytes kind.json before).length :=
    Buffer.fits_of_room hroom hbefore
  have hw := SinkM.writes_of_fits hpieces hfits further 0
  obtain ⟨b', handed, goOn, hhanded, hexport⟩ := exportInto_eq_write_of_upcoming hrecords hw
  have hfull := Buffer.room_add hroom (JsonLines.bytes kind.json before)
  rw [Nat.add_sub_cancel_left] at hfull
  obtain ⟨output', htaken, hwrite⟩ := SinkM.write_of_cut hpieces hfull hn hfaults
  rw [hwrite] at hexport
  have hcount : ((kind.json r).utf8.take n).count Text.newline = 0 :=
    List.count_eq_zero.2 fun hmem => (kind.json r).newline_not_mem_utf8 (List.mem_of_mem_take hmem)
  have herror (fault : IoFault) :
      (if n = (kind.json r).utf8.length then LedgerError.ofIo fault else .ofJson fault) =
        { cause := if n = (kind.json r).utf8.length then
            if fault.kind = .unexpectedEof then .truncatedRecord else .io fault
          else .json fault } := by
    rw [LedgerError.ofIo]
    split
    · split <;> rfl
    · rfl
  refine ⟨before, after, r, handed, output', b', hrecords, hhanded, hbefore, hcut, ?_,
    hexport.trans ?_⟩
  · rw [lineBytes, hrecords, JsonLines.take_bytes _ _ _ _ hn, htaken]
    exact List.append_assoc _ _ _
  · rw [lineBytes, hrecords, JsonLines.take_bytes _ _ _ _ hn, List.count_append, hcount,
      JsonLines.count_newline_bytes, Nat.zero_add]
    simp only [JsonLines.getElem?_bytes _ _ _ _ hn, herror]
    cases fault? <;> rfl

end

/-- An export of a scan that meets no error into an output that keeps what it takes, the JSON texts
coming in any pieces. Without a limit it writes the bytes of the lines and counts the items. If
there is room for some bytes only, it leaves the first ones and counts the ends of lines among them.
If all of them fit, it ends as without a limit, but for a failure to flush the output.

Otherwise the record in whose line the first byte lies that does not fit is the last one handed to
the sink, and the error is that of the output if this byte is the end of the line, and one of the
JSON text if it is any other. The fault is the first one that is no interruption, and it is met in
one further attempt at a piece and one for each interruption. Where the output is interrupted for
ever, no number of attempts is enough. -/
theorem Pass.exportInto_bounded {kind : ExportKind} {s : Store} {p : Pass kind.kind.Record}
    (hp : p.ErrorFree s) (b : Budget) {pieces : Json → List Bytes}
    (hpieces : ∀ x, (pieces x).flatten = x.utf8) :
    let into (further : Nat) (output : Buffer) :=
      p.exportInto (.jsonLines Buffer.output further pieces kind.json) { output } b
    ∃ full, (∀ further, into further {} = some full) ∧
      full.result = .ok (p.counts + Counts.ofItems full.items) ∧
      let bytes := full.sink.output.taken
      bytes = Text.utf8 (p.exportTo (.jsonLines kind.json) {} b).sink.writer.text ∧
      bytes = JsonLines.bytes kind.json (Item.records full.items) ∧
      ∀ (room : Nat) (faults : Nat → IoFault) (flushFault : Option IoFault),
        let cut? (further : Nat) := into further { room := some (room, faults), flushFault }
        let cause (fault : IoFault) :=
          if bytes[room]? = some Text.newline then
            if fault.kind = .unexpectedEof then Cause.truncatedRecord else .io fault
          else .json fault
        (bytes.length ≤ room → ∃ cut, (∀ further, cut? further = some cut) ∧
          cut.sink.output.taken = bytes ∧ cut.sink.written = bytes.count Text.newline ∧
          cut.items = full.items ∧ (flushFault = none → cut.result = full.result) ∧
          ∀ f, flushFault = some f → cut.result = .error (.ofIo f)) ∧
        (room < bytes.length → ∀ k, (faults k).kind ≠ .interrupted →
          (∀ i < k, (faults i).kind = .interrupted) → ∀ further, k < further →
          ∃ cut, cut? further = some cut ∧ cut.sink.output.taken = bytes.take room ∧
            cut.sink.written = (bytes.take room).count Text.newline ∧
            cut.result = .error { cause := cause (faults k) } ∧
            ∃ before r after, Item.records full.items = before ++ r :: after ∧
              Item.records cut.items = before ++ [r] ∧
              (JsonLines.bytes kind.json before).length ≤ room ∧
              room ≤ (JsonLines.bytes kind.json before).length + (kind.json r).utf8.length) ∧
        (room < bytes.length → (∀ i, (faults i).kind = .interrupted) →
          ∀ further, cut? further = none) := by
  intro into
  refine ⟨_, fun further => hp.exportInto_of_fits hpieces further b {} nofun, rfl, ?_, rfl,
    fun room faults flushFault => ⟨?_, ?_, ?_⟩⟩
  · exact (hp.exportTo_jsonLines b).symm
  · intro hle
    have hfits : Buffer.Fits { room := some (room, faults), flushFault } (p.lineBytes b).length :=
      Buffer.fits_of_room rfl hle
    refine ⟨_, fun further => hp.exportInto_of_fits hpieces further b _ hfits, rfl, rfl, rfl,
      ?_, ?_⟩
    · rintro rfl
      rfl
    · rintro f rfl
      rfl
  · intro hlt k hkind hbefore further hfurther
    have hfaults : Settled further faults (some (faults k)) :=
      ⟨k, hfurther, rfl, hkind, hbefore⟩
    obtain ⟨before, after, r, handed, output', b', hrecords, hhanded, hle, hr, htaken, hcut⟩ :=
      exportInto_of_cut hpieces hlt { room := some (room, faults), flushFault } rfl hfaults
    exact ⟨_, hcut, htaken, rfl, rfl, before, r, after, hrecords, hhanded, hle, hr⟩
  · intro hlt hkind further
    have hfaults : Settled further faults none := hkind
    obtain ⟨before, after, r, handed, output', b', -, -, -, -, -, hcut⟩ :=
      exportInto_of_cut hpieces hlt { room := some (room, faults), flushFault } rfl hfaults
    exact hcut

/-! ## A single weight -/

/-- The entry of a weight of 5 at the time 1. -/
def aWeight : Entry := ⟨[0, 0, 0, 0, 0, 0, 0, 1], List.replicate 15 0 ++ [5]⟩

/-- A single weight. -/
def oneWeight : Tables := Tables.empty.insert .onlineWeight aWeight.key aWeight.value

namespace Pass

/-- The pass over the single weight. -/
def overOneWeight : Pass ExportKind.onlineWeight.kind.Record :=
  along .onlineWeight oneWeight.store ([aWeight].map .ok) none none

theorem walk_oneWeight : oneWeight.store.walk (RecordKind.table .onlineWeight) none =
    .ok ([aWeight].map .ok) := rfl

theorem start_oneWeight : start .onlineWeight oneWeight.store {} = .ok overOneWeight :=
  start_eq_along walk_oneWeight (.inl rfl)

theorem errorFree_overOneWeight : overOneWeight.ErrorFree oneWeight.store :=
  errorFree_inRange (fun t key _ => ⟨oneWeight.find? t key, rfl⟩) walk_oneWeight start_oneWeight

theorem lineBytes_overOneWeight : overOneWeight.lineBytes none =
    Text.utf8 "\x7b\"timestamp\":1,\"amount\":\"5\"\x7d\n" := rfl

/-- The fault of an attempt that is interrupted. -/
def interruption : IoFault := { text := "interrupted", kind := .interrupted }

/-- The faults of an output that is interrupted once and then has no room. -/
def interruptedOnce : Nat → IoFault
  | 0 => interruption
  | _ + 1 => { text := "no room" }

/-- The line of the weight, written byte by byte, is cut behind the third one, with a fault of the
JSON text, or in front of its end, with one of the output. -/
theorem exportInto_bounded_oneWeight :
    let pieces (x : Json) := x.utf8.map fun byte => [byte]
    let into (room : Nat) := overOneWeight.exportInto
      (.jsonLines Buffer.output 2 pieces ExportKind.onlineWeight.json)
      { output := { room := some (room, interruptedOnce) } } none
    overOneWeight.ErrorFree oneWeight.store ∧ (∀ x, (pieces x).flatten = x.utf8) ∧
      (∃ cut, into 3 = some cut ∧ cut.sink.output.taken = [123, 34, 116] ∧ cut.sink.written = 0 ∧
        cut.result = .error (.ofJson { text := "no room" })) ∧
      ∃ cut, into 28 = some cut ∧
        cut.sink.output.taken = Text.utf8 "\x7b\"timestamp\":1,\"amount\":\"5\"\x7d" ∧
        cut.sink.written = 0 ∧ cut.result = .error (.ofIo { text := "no room" }) := by
  intro pieces into
  have hpieces : ∀ x, (pieces x).flatten = x.utf8 := fun x =>
    (List.flatMap_def ..).symm.trans (List.flatMap_singleton' _)
  obtain ⟨full, hfull, -, hbytes, -, hcut⟩ :=
    exportInto_bounded errorFree_overOneWeight none hpieces
  have hline : full.sink.output.taken =
      Text.utf8 "\x7b\"timestamp\":1,\"amount\":\"5\"\x7d\n" := hbytes
  rw [hline] at hcut
  have hkind : (interruptedOnce 1).kind ≠ .interrupted := by decide
  have hbefore : ∀ i < 1, (interruptedOnce i).kind = .interrupted := by decide
  obtain ⟨inside, hinside, htaken, hwritten, hresult, -⟩ :=
    (hcut 3 interruptedOnce none).2.1 (by decide +kernel) 1 hkind hbefore 2 (Nat.lt_succ_self 1)
  obtain ⟨behind, hbehind, htaken', hwritten', hresult', -⟩ :=
    (hcut 28 interruptedOnce none).2.1 (by decide +kernel) 1 hkind hbefore 2 (Nat.lt_succ_self 1)
  exact ⟨errorFree_overOneWeight, hpieces, ⟨inside, hinside, htaken, hwritten, hresult⟩,
    behind, hbehind, htaken', hwritten', hresult'⟩

/-- An output with room for three bytes of the line of the weight, after which all attempts are
interrupted, keeps the export for ever, and one that takes the line but cannot be flushed makes it
fail. -/
theorem exportInto_interrupted :
    let into (further : Nat) (output : Buffer) := overOneWeight.exportInto
      (.jsonLines Buffer.output further (fun x => [x.utf8]) ExportKind.onlineWeight.json)
      { output } none
    overOneWeight.ErrorFree oneWeight.store ∧
      ∃ full, (∀ further, into further {} = some full) ∧ full.result = .ok ⟨1, 0⟩ ∧
        3 < full.sink.output.taken.length ∧
        (∀ further, into further { room := some (3, fun _ => interruption) } = none) ∧
        ∃ report,
          (∀ further, into further { flushFault := some { text := "no space left" } } =
            some report) ∧
          report.sink.output.taken = full.sink.output.taken ∧
          report.result = .error (.ofIo { text := "no space left" }) := by
  intro into
  have hpieces : ∀ x : Json, [x.utf8].flatten = x.utf8 := fun x => List.append_nil _
  have hp := errorFree_overOneWeight
  have hlt : 3 < (overOneWeight.lineBytes none).length := by
    rw [lineBytes_overOneWeight]
    decide +kernel
  have hnever (further : Nat) :
      into further { room := some (3, fun _ => interruption) } = none := by
    have hfaults : Settled further (fun _ => interruption) none := fun _ => rfl
    obtain ⟨before, after, r, handed, output, b, -, -, -, -, -, hnever⟩ :=
      exportInto_of_cut hpieces hlt { room := some (3, fun _ => interruption) } rfl hfaults
    exact hnever
  exact ⟨hp, _, fun further => hp.exportInto_of_fits hpieces further none {} nofun, rfl, hlt,
    hnever, _, fun further => hp.exportInto_of_fits hpieces further none _ nofun, rfl, rfl⟩

end Pass

end NanoLedger
