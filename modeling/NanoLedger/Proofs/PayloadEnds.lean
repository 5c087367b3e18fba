import NanoLedger.Proofs.RecordFormats

/-!
# Where payloads end

Values of `blocks` and of `unchecked` begin alike, with a tag and the payload of its kind. Behind
the payload stands a sideband in the one table and a trailer in the other, so where the payload ends
decides how the rest is read. `Payload.EndsAt` says where that is, by the bytes of `Payload.stored`;
the reader of payloads stops there and nowhere else (`Payload.run_read_tag`).

A value then holds a stored block exactly if the sideband of that block begins where its payload
ends (`Block.decode_tag_eq_ok`), and an unchecked block exactly if its trailer does
(`UncheckedInfo.decode_eq_ok_iff_endsAt`). `payload_readers_agree` puts the two side by side.
-/

namespace NanoLedger

open ByteOrder

/-! ## The end of a payload -/

/-- Reading from the beginning of a byte string stops right behind the bytes of the value that was
read. -/
theorem Layout.run_read_start_eq_ok {α : Type} (l : Layout α) {bytes : Bytes} {a : α} {c : Cursor} :
    l.read.run (.start bytes) = (.ok a, c) ↔ bytes = l.write a ++ c.rest ∧ c.pos = l.size := by
  rw [run_read, Cursor.start, Prod.mk.injEq]
  constructor
  · rintro ⟨hparse, hc⟩
    rw [if_pos (l.size_le_of_parse hparse)] at hc
    subst hc
    exact ⟨l.eq_write_of_parse hparse, Nat.zero_add l.size⟩
  · obtain ⟨pos, rest⟩ := c
    rintro ⟨rfl, rfl⟩
    have hle : l.size ≤ (l.write a ++ rest).length := by
      rw [List.length_append, length_write]
      exact Nat.le_add_right _ _
    have hdrop : (l.write a ++ rest).drop l.size = rest := List.drop_left' (l.length_write a)
    rw [if_pos hle, Cursor.advance, Nat.zero_add, hdrop]
    exact ⟨l.parse_append a rest, rfl⟩

/-- Enough bytes always hold a value. -/
theorem Layout.exists_parse_eq_ok {α : Type} (l : Layout α) {bytes : Bytes}
    (h : l.size ≤ bytes.length) : ∃ a, l.parse bytes = .ok a := by
  rw [l.parse_eq, dif_pos h]
  exact ⟨_, rfl⟩

namespace Payload

/-- Whether a value begins with a payload of a known kind that ends where a cursor stands. The
cursor counts from behind the tag. -/
structure EndsAt (p : Payload) (value : Bytes) (c : Cursor) : Prop where
  known : p.Known
  value_eq : value = p.stored ++ c.rest
  length_eq : p.stored.length = c.pos + 1

/-- The reader of payloads stops where the payload ends that it has read. -/
theorem run_read_tag (k : StoredKind) {rest : Bytes} {p : Payload} {c : Cursor} :
    (read k.tag).run (.start rest) = (.ok p, c) ↔ p.EndsAt (k.tag :: rest) c := by
  rw [read_tag, Read.run_bind]
  constructor
  · intro h
    cases hrun : k.payloadLayout.read.run (.start rest) with
    | mk result c' =>
      rw [hrun] at h
      cases result with
      | error e => cases h
      | ok fields =>
        cases h
        obtain ⟨hrest, hpos⟩ := k.payloadLayout.run_read_start_eq_ok.1 hrun
        refine ⟨⟨k, fields, rfl⟩, ?_, ?_⟩
        · rw [stored_payload, List.cons_append, ← hrest]
        · rw [stored_payload, List.length_cons, Layout.length_write, hpos]
  · rintro ⟨⟨j, fields, rfl⟩, hvalue, hlength⟩
    rw [stored_payload, List.cons_append] at hvalue
    rw [stored_payload, List.length_cons, Layout.length_write] at hlength
    obtain ⟨htag, hrest⟩ := List.cons.inj hvalue
    -- the payload begins with the tag of its own kind, so this is the kind that is read
    obtain rfl := StoredKind.tag_inj htag
    have hpos : c.pos = k.payloadLayout.size := (Nat.succ.inj hlength).symm
    rw [k.payloadLayout.run_read_start_eq_ok.2 ⟨hrest, hpos⟩]
    rfl

/-- The reader of payloads fails for missing bytes only. -/
theorem eq_truncated_of_run_read {k : StoredKind} {rest : Bytes} {e : LedgerError} {c : Cursor}
    (h : (read k.tag).run (.start rest) = (.error e, c)) : e = .truncated := by
  rw [read_tag, Read.run_bind, Layout.run_read] at h
  cases hparse : k.payloadLayout.parse (Cursor.start rest).rest with
  | error e' =>
    rw [hparse] at h
    cases h
    exact ((k.payloadLayout.parse_eq_error _ _).1 hparse).2
  | ok fields =>
    rw [hparse] at h
    cases h

/-- A value begins with a known payload and certain bytes behind it exactly if the payload ends at a
place where these bytes begin. -/
theorem exists_endsAt_iff {p : Payload} {value follow : Bytes} :
    (∃ c, p.EndsAt value c ∧ follow <+: c.rest) ↔ p.Known ∧ p.stored ++ follow <+: value := by
  constructor
  · rintro ⟨c, hends, tail, hrest⟩
    refine ⟨hends.known, tail, ?_⟩
    rw [hends.value_eq, ← hrest, List.append_assoc]
  · rintro ⟨hknown, tail, rfl⟩
    have hlength : p.stored.length = p.write.length + 1 := by
      rw [← tag_write_eq_stored, List.length_cons]
    exact ⟨⟨p.write.length, follow ++ tail⟩, ⟨hknown, List.append_assoc .., hlength⟩,
      List.prefix_append _ _⟩

end Payload

/-! ## Sidebands and trailers -/

namespace Block

/-- The bytes behind the payload of a stored block, spelled out. -/
def storedSideband : Block → Bytes
  | send _ s => List.flatten
    [s.successor.bytes, s.account.key.bytes, bigEndian.spell 8 s.height.toNat,
      bigEndian.spell 8 s.timestamp.toNat]
  | receive _ s => List.flatten
    [s.successor.bytes, s.account.key.bytes, bigEndian.spell 8 s.height.toNat,
      bigEndian.spell 16 s.balance.toNat, bigEndian.spell 8 s.timestamp.toNat]
  | opening _ s => List.flatten
    [s.successor.bytes, bigEndian.spell 16 s.balance.toNat, bigEndian.spell 8 s.timestamp.toNat]
  | change _ s => List.flatten
    [s.successor.bytes, s.account.key.bytes, bigEndian.spell 8 s.height.toNat,
      bigEndian.spell 16 s.balance.toNat, bigEndian.spell 8 s.timestamp.toNat]
  | state _ s => List.flatten
    [s.successor.bytes, bigEndian.spell 8 s.height.toNat, bigEndian.spell 8 s.timestamp.toNat,
      [s.flags.packed]]
  | unsupported _ _ => []

/-- A stored block is its payload with the sideband behind it. -/
theorem stored_eq_append (b : Block) : b.stored = b.payload.stored ++ b.storedSideband := by
  cases b <;> simp [stored, payload, Payload.stored, storedSideband]

theorem payload_block (k : StoredKind) (contents : k.Contents) :
    (k.block contents).payload.Known := by
  cases k with
  | send => exact ⟨.send, contents.1, rfl⟩
  | receive => exact ⟨.receive, contents.1, rfl⟩
  | opening => exact ⟨.opening, contents.1, rfl⟩
  | change => exact ⟨.change, contents.1, rfl⟩
  | state => exact ⟨.state, contents.1, rfl⟩

/-- Behind a known tag, a block is read exactly where its payload is and its sideband begins at the
end of that. -/
theorem decode_tag_eq_ok (k : StoredKind) {rest : Bytes} {b : Block} :
    decode (k.tag :: rest) = .ok b ↔
      ∃ c, b.payload.EndsAt (k.tag :: rest) c ∧ b.storedSideband <+: c.rest := by
  rw [Payload.exists_endsAt_iff, ← stored_eq_append]
  constructor
  · intro h
    obtain ⟨contents, -, rfl⟩ := eq_block_of_decode h
    exact ⟨payload_block k contents, (decode_eq_ok (k.type?_block contents) _).1 h⟩
  · rintro ⟨hknown, hprefix⟩
    have hb : b.type? ≠ none := by
      intro htype
      cases b with
      | unsupported t contents => exact (Payload.known_iff _).1 hknown t contents rfl
      | _ => cases htype
    exact (decode_eq_ok hb _).2 hprefix

end Block

namespace UncheckedInfo

/-- The bytes behind the payload of an unchecked block, spelled out. -/
def storedTrailer (u : UncheckedInfo) : Bytes :=
  List.flatten [u.account.key.bytes, littleEndian.spell 8 u.modified.toNat, [u.verified.toByte]]

theorem length_storedTrailer (u : UncheckedInfo) : u.storedTrailer.length = 41 := by
  simp [storedTrailer, u.account.key.length_eq]

theorem write_trailer (u : UncheckedInfo) :
    trailer.write (u.account, u.modified, u.verified.toByte) = u.storedTrailer := by
  simp [trailer, storedTrailer, encode_eq_spell]

/-- An unchecked block is read exactly where its payload is and its trailer begins at the end of
that. -/
theorem decode_eq_ok_iff_endsAt {u : UncheckedInfo} {key value : Bytes} :
    decode key value = .ok u ↔ (∃ b, u.verified = .ofByte b) ∧
      u.entry.key <+: key ∧ ∃ c, u.block.EndsAt value c ∧ u.storedTrailer <+: c.rest := by
  rw [decode_eq_ok, Entry.Begins, Payload.exists_endsAt_iff, ← writeValue_eq, writeValue_eq_append,
    write_trailer, and_left_comm (b := u.entry.key <+: key)]

/-- Two hashes for a key and a trailer behind a payload make an unchecked block. -/
theorem exists_decode_eq_ok {p : Payload} {key value : Bytes} {c : Cursor}
    (hkey : 64 ≤ key.length) (hends : p.EndsAt value c) (hrest : 41 ≤ c.rest.length) :
    ∃ u, decode key value = .ok u := by
  obtain ⟨hashes, hhashes⟩ := keyLayout.exists_parse_eq_ok hkey
  obtain ⟨⟨account, modified, verified⟩, htrailer⟩ := trailer.exists_parse_eq_ok hrest
  let u : UncheckedInfo := ⟨hashes.1, hashes.2, p, account, modified, .ofByte verified⟩
  have hbegins : u.entry.key <+: key := by
    rw [← writeKey_eq]
    exact keyLayout.parse_eq_ok.1 hhashes
  have hfollow : u.storedTrailer <+: c.rest := by
    rw [← write_trailer, Verification.toByte_ofByte]
    exact trailer.parse_eq_ok.1 htrailer
  exact ⟨u, decode_eq_ok_iff_endsAt.2 ⟨⟨verified, rfl⟩, hbegins, c, hends, hfollow⟩⟩

end UncheckedInfo

/-! ## The two tables side by side -/

/-- The reader of payloads agrees with the readers of stored and of unchecked blocks, for every
known tag and whatever stands behind it. A stored block is read if and only if its payload is and
its sideband begins where the payload ends. If the payload cannot be read, for missing bytes, then
for the same reason neither can the stored block. With a key of two hashes an unchecked block is
read if and only if its payload is and 41 bytes follow, and it holds that payload and what these
bytes spell out. -/
theorem payload_readers_agree {t : UInt8} (ht : t ∈ [2, 3, 4, 5, 6]) (b : Bytes) :
    (∀ block, Block.decode (t :: b) = .ok block ↔
      ∃ c, (Payload.read t).run (.start b) = (.ok block.payload, c) ∧
        t :: b = block.payload.stored ++ c.rest ∧ block.payload.stored.length = c.pos + 1 ∧
        block.storedSideband <+: c.rest) ∧
    (∀ e c, (Payload.read t).run (.start b) = (.error e, c) →
      e = .truncated ∧ Block.decode (t :: b) = .error .truncated) ∧
    ∀ key : Bytes, 64 ≤ key.length →
      ((∃ u, UncheckedInfo.decode key (t :: b) = .ok u) ↔
        ∃ p c, (Payload.read t).run (.start b) = (.ok p, c) ∧ 41 ≤ c.rest.length) ∧
      ∀ u, UncheckedInfo.decode key (t :: b) = .ok u →
        ∃ c byte, (Payload.read t).run (.start b) = (.ok u.block, c) ∧
          u.verified = .ofByte byte ∧ c.rest.take 41 = List.flatten
            [u.account.key.bytes, littleEndian.spell 8 u.modified.toNat, [byte]] := by
  obtain ⟨k, rfl⟩ | hunknown := StoredKind.tag_cases t
  · refine ⟨?_, ?_, ?_⟩
    · intro block
      rw [Block.decode_tag_eq_ok]
      constructor
      · rintro ⟨c, hends, hsideband⟩
        exact ⟨c, (Payload.run_read_tag k).2 hends, hends.value_eq, hends.length_eq, hsideband⟩
      · rintro ⟨c, hrun, -, -, hsideband⟩
        exact ⟨c, (Payload.run_read_tag k).1 hrun, hsideband⟩
    · intro e c hrun
      refine ⟨Payload.eq_truncated_of_run_read hrun, ?_⟩
      cases hdecode : Block.decode (k.tag :: b) with
      | error e' => rw [((Block.decode_eq_error _ e').1 hdecode).2]
      | ok block =>
        obtain ⟨c', hends, -⟩ := (Block.decode_tag_eq_ok k).1 hdecode
        rw [(Payload.run_read_tag k).2 hends] at hrun
        cases hrun
    · intro key hkey
      constructor
      · constructor
        · rintro ⟨u, hu⟩
          obtain ⟨-, -, c, hends, htrailer⟩ := UncheckedInfo.decode_eq_ok_iff_endsAt.1 hu
          have hle := htrailer.length_le
          rw [u.length_storedTrailer] at hle
          exact ⟨u.block, c, (Payload.run_read_tag k).2 hends, hle⟩
        · rintro ⟨p, c, hrun, hle⟩
          exact UncheckedInfo.exists_decode_eq_ok hkey ((Payload.run_read_tag k).1 hrun) hle
      · intro u hu
        obtain ⟨⟨byte, hbyte⟩, -, c, hends, htrailer⟩ :=
          UncheckedInfo.decode_eq_ok_iff_endsAt.1 hu
        have htake := List.prefix_iff_eq_take.1 htrailer
        rw [u.length_storedTrailer, UncheckedInfo.storedTrailer, hbyte,
          Verification.toByte_ofByte] at htake
        exact ⟨c, byte, (Payload.run_read_tag k).2 hends, hbyte, htake.symm⟩
  · exact absurd ht ((StoredKind.unknown_iff t).1 hunknown)

/-- A state block, read as stored and, with its sideband for a trailer, as unchecked; and its tag
with nothing behind it. -/
theorem payload_readers_agree_zerosAt :
    (6 : UInt8) ∈ [2, 3, 4, 5, 6] ∧
      Block.decode (6 :: (Block.zerosAt 2).stored.tail) = .ok (.zerosAt 2) ∧
      (∃ c, (Payload.read 6).run (.start (Block.zerosAt 2).stored.tail) =
          (.ok (Block.zerosAt 2).payload, c) ∧
        c.pos = 216 ∧ (Block.zerosAt 2).storedSideband <+: c.rest) ∧
      64 ≤ (List.replicate 64 (0 : UInt8)).length ∧
      (∃ u, UncheckedInfo.decode (List.replicate 64 0) (6 :: (Block.zerosAt 2).stored.tail) =
        .ok u) ∧
      (Payload.read 6).run (.start []) = (.error .truncated, (Cursor.start []).toEnd) ∧
      Block.decode [6] = .error .truncated := by
  have ht : (6 : UInt8) ∈ [2, 3, 4, 5, 6] := by decide
  have hkey : 64 ≤ (List.replicate 64 (0 : UInt8)).length := Nat.le_refl 64
  obtain ⟨hstored, -, hunchecked⟩ := payload_readers_agree ht (Block.zerosAt 2).stored.tail
  have htype : (Block.zerosAt 2).type? ≠ none := nofun
  have hdecode : Block.decode (6 :: (Block.zerosAt 2).stored.tail) = .ok (.zerosAt 2) :=
    (Block.decode_eq_ok htype _).2 List.prefix_rfl
  obtain ⟨c, hrun, -, hlength, hsideband⟩ := (hstored _).1 hdecode
  have hpos : c.pos = 216 := by
    have hpayload : (Block.zerosAt 2).payload.stored.length = 217 := rfl
    omega
  have hle : 41 ≤ c.rest.length := by
    have hsize : (Block.zerosAt 2).storedSideband.length = 49 := rfl
    have hprefix := hsideband.length_le
    omega
  have hempty : (Payload.read 6).run (.start []) = (.error .truncated, (Cursor.start []).toEnd) :=
    rfl
  obtain ⟨-, hfails, -⟩ := payload_readers_agree ht []
  exact ⟨ht, hdecode, ⟨c, hrun, hpos, hsideband⟩, hkey,
    (hunchecked _ hkey).1.2 ⟨_, c, hrun, hle⟩, hempty, (hfails _ _ hempty).2⟩

end NanoLedger
