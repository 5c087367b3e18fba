import NanoLedger.Bytes.Basic

/-!
# The bytes of a text

Texts are written and read as bytes in UTF-8. A text of ASCII characters has one byte for each of
them (`Text.utf8_of_ascii`), and only such a text has bytes of ASCII alone (`Text.ascii_of_utf8`).
So for what is written in ASCII it makes no difference whether characters or bytes are looked at.
Nor do control characters come into the bytes of a text that has none (`Text.printable_utf8`).
-/

namespace NanoLedger

namespace Text

theorem utf8_eq_flatMap (text : String) :
    utf8 text = text.toList.flatMap String.utf8EncodeChar := by
  rw [utf8, String.toUTF8, ← String.utf8Encode_toList, List.utf8Encode, List.data_toByteArray,
    List.toList_toArray]

theorem utf8_append (s t : String) : utf8 (s ++ t) = utf8 s ++ utf8 t := by
  simp only [utf8_eq_flatMap, String.toList_append, List.flatMap_append]

/-- A text of ASCII characters has one byte for each. -/
theorem utf8_of_ascii {text : String} (h : ∀ c ∈ text.toList, c.toNat < 128) :
    utf8 text = text.toList.map Char.toUInt8 := by
  have hchar : ∀ c ∈ text.toList, String.utf8EncodeChar c = [c.toUInt8] := fun c hc =>
    String.utf8EncodeChar_eq_singleton (Char.utf8Size_eq_one_iff.2 (Nat.le_of_lt_succ (h c hc)))
  rw [utf8_eq_flatMap, List.flatMap_def, List.map_congr_left hchar, ← List.flatMap_def,
    List.map_eq_flatMap]

theorem length_utf8 {text : String} (h : ∀ c ∈ text.toList, c.toNat < 128) :
    (utf8 text).length = text.toList.length := by
  rw [utf8_of_ascii h, List.length_map]

/-- A character beyond ASCII has a byte beyond ASCII. -/
theorem exists_mem_utf8EncodeChar {c : Char} (h : 128 ≤ c.toNat) :
    ∃ b ∈ String.utf8EncodeChar c, 128 ≤ b.toNat := by
  fun_cases String.utf8EncodeChar c with
  | case1 v hv => exact absurd (Nat.lt_succ_of_le hv) (Nat.not_lt.2 h)
  | case2 | case3 | case4 =>
    refine ⟨_, .head _, ?_⟩
    rw [UInt8.toNat_ofNat']
    omega

/-- A text whose bytes are those of ASCII consists of ASCII characters. -/
theorem ascii_of_utf8 {text : String} (h : ∀ b ∈ utf8 text, b.toNat < 128) :
    ∀ c ∈ text.toList, c.toNat < 128 := by
  intro c hc
  refine Nat.not_le.1 fun hle => ?_
  obtain ⟨b, hb, hbyte⟩ := exists_mem_utf8EncodeChar hle
  rw [utf8_eq_flatMap] at h
  exact Nat.not_lt.2 hbyte (h b (List.mem_flatMap_of_mem hc hb))

/-- A character that is no control character has no byte that is one. -/
theorem printable_utf8EncodeChar {c : Char} (h : 32 ≤ c.toNat) :
    ∀ b ∈ String.utf8EncodeChar c, 32 ≤ b.toNat := by
  fun_cases String.utf8EncodeChar c with
  | case1 v hv =>
    have hvalue : c.toNat = v := rfl
    simp only [List.mem_singleton, forall_eq, UInt8.toNat_ofNat']
    omega
  | case2 | case3 | case4 =>
    simp only [List.forall_mem_cons, UInt8.toNat_ofNat', List.not_mem_nil, false_implies,
      implies_true, and_true]
    omega

/-- A text without control characters has no bytes that are. -/
theorem printable_utf8 {text : String} (h : ∀ c ∈ text.toList, 32 ≤ c.toNat) :
    ∀ b ∈ utf8 text, 32 ≤ b.toNat := by
  intro b hb
  rw [utf8_eq_flatMap] at hb
  obtain ⟨c, hc, hb⟩ := List.mem_flatMap.1 hb
  exact printable_utf8EncodeChar (h c hc) b hb

/-- Listing a byte array puts what is behind a place of it behind what was listed before. -/
theorem toList_loop (bs : ByteArray) (i : Nat) (listed : Bytes) :
    ByteArray.toList.loop bs i listed = listed.reverse ++ bs.data.toList.drop i := by
  fun_induction ByteArray.toList.loop bs i listed with
  | case1 i listed h ih =>
    have hdrop : bs.data.toList.drop i = bs.get! i :: bs.data.toList.drop (i + 1) := by
      rw [List.drop_eq_getElem_cons (by simpa using h), Array.getElem_toList]
      exact congrArg (· :: _) (getElem!_pos bs.data i h).symm
    rw [ih, hdrop, List.reverse_cons, List.append_assoc, List.singleton_append]
  | case2 i listed h =>
    have hle : bs.data.toList.length ≤ i := Nat.not_lt.1 h
    rw [List.drop_eq_nil_of_le hle, List.append_nil]

theorem toList_toUTF8 (text : String) : text.toUTF8.toList = utf8 text := toList_loop _ 0 []

end Text

end NanoLedger
