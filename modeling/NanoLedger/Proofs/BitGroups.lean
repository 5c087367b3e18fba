import Mathlib.Algebra.GroupWithZero.Nat
import Mathlib.Data.List.Forall2
import NanoLedger.Cursor
import NanoLedger.Proofs.SymbolCodec

/-!
# The bit groups of a byte

Widths divide a byte if none is zero and they add up to eight (`DividesByte`). The byte is cut into
groups of such widths without a panic, and the groups, each written in its width, are the bits of
the byte (`exists_cutGroups`). The induction is on the widths: what is still to be cut is as many
low bits of the byte as the widths that are left add up to, and one cut takes the first group from
them (`Bits.ofNat_add`).

Widths are added as checked 32-bit words before they are looked at, so widths that add up to
`2 ^ 32` or more panic (`Checked.sum_eq`), also where one of them is zero. All others that do not
divide a byte are refused. `Read.split_exact` tells this of all widths.
-/

namespace NanoLedger

/-! ## Widths -/

/-- What widths add up to. -/
def totalWidth (widths : List UInt32) : Nat := (widths.map UInt32.toNat).sum

/-- Whether widths divide a byte: none is zero, and together they are eight. -/
def DividesByte (widths : List UInt32) : Prop :=
  (∀ w ∈ widths, 1 ≤ w.toNat) ∧ totalWidth widths = 8

/-- Whether a group is a number of its width. -/
def FitsWidth (w : UInt32) (g : UInt8) : Prop := g.toNat < 2 ^ w.toNat

/-- The bits of groups one behind the other, each group written in its width. -/
def joinGroups (widths : List UInt32) (groups : List UInt8) : List Bool :=
  (List.zipWith (fun w g => Bits.ofNat w.toNat g.toNat) widths groups).flatten

@[simp] theorem totalWidth_cons (w : UInt32) (widths : List UInt32) :
    totalWidth (w :: widths) = w.toNat + totalWidth widths := rfl

instance (widths : List UInt32) : Decidable (DividesByte widths) :=
  have : Decidable (∀ w ∈ widths, 1 ≤ w.toNat) := List.decidableBAll _ widths
  inferInstanceAs (Decidable ((∀ w ∈ widths, 1 ≤ w.toNat) ∧ totalWidth widths = 8))

theorem Checked.add_eq (a b : UInt32) :
    add a b = if a.toNat + b.toNat < 2 ^ 32 then .gives (a + b) else .panics := rfl

/-- Adding words to a word gives their sum, or panics if it is no word. -/
theorem Checked.foldlM_add (a : UInt32) (words : List UInt32) :
    words.foldlM add a =
      if a.toNat + totalWidth words < 2 ^ 32 then
        .gives (UInt32.ofNat (a.toNat + totalWidth words))
      else .panics := by
  induction words generalizing a with
  | nil =>
    have ha : a.toNat + totalWidth [] < 2 ^ 32 := a.toNat_lt
    rw [if_pos ha]
    exact congrArg Call.gives UInt32.ofNat_toNat.symm
  | cons w words ih =>
    rw [List.foldlM_cons, totalWidth_cons, add_eq]
    by_cases h : a.toNat + w.toNat < 2 ^ 32
    · have hsum : (a + w).toNat = a.toNat + w.toNat := by
        rw [UInt32.toNat_add, Nat.mod_eq_of_lt h]
      rw [if_pos h, Call.gives_bind, ih, hsum, Nat.add_assoc]
    · rw [if_neg h, if_neg (by omega), Call.panics_bind]

/-- The sum of words panics exactly if it is no word. -/
theorem Checked.sum_eq (words : List UInt32) :
    sum words =
      if totalWidth words < 2 ^ 32 then .gives (UInt32.ofNat (totalWidth words)) else .panics := by
  have h := foldlM_add 0 words
  rwa [UInt32.toNat_zero, Nat.zero_add] at h

/-- Which widths are accepted, as long as their sum is a word. -/
theorem covers_iff_dividesByte {widths : List UInt32} (h : totalWidth widths < 2 ^ 32) :
    (UInt32.ofNat (totalWidth widths) = 8 && !widths.contains 0) = true ↔ DividesByte widths := by
  have hpos : (!widths.contains 0) = true ↔ ∀ w ∈ widths, 1 ≤ w.toNat := by
    rw [Bool.not_eq_true', ← Bool.not_eq_true, List.contains_iff_mem]
    constructor
    · intro hzero w hw
      refine Nat.one_le_iff_ne_zero.2 fun h => hzero ?_
      rwa [← UInt32.toNat_inj.1 (h.trans UInt32.toNat_zero.symm)]
    · intro h hzero
      exact absurd (h 0 hzero) (by decide)
  rw [Bool.and_eq_true, decide_eq_true_eq, hpos, ← UInt32.toNat_inj, UInt32.toNat_ofNat_of_lt' h,
    and_comm, DividesByte]
  rfl

/-! ## Cutting -/

/-- The low bits of a number are its upper ones, in front, and its lower ones. -/
theorem Bits.ofNat_add (v w n : Nat) : ofNat (v + w) n = ofNat v (n / 2 ^ w) ++ ofNat w n := by
  induction v with
  | zero => rw [Nat.zero_add]; rfl
  | succ v ih => rw [Nat.succ_add, ofNat, ofNat, ih, Nat.testBit_div_two_pow, List.cons_append]

/-- The mask of a group has as many low bits as the group is wide. -/
theorem toNat_mask : ∀ {w : UInt32}, w.toNat ≤ 8 →
    (((1 : UInt16) <<< w.toUInt16) - 1).toUInt8.toNat = 2 ^ w.toNat - 1 := by
  have hall : ∀ n : Fin 9,
      (((1 : UInt16) <<< (UInt32.ofNat n).toUInt16) - 1).toUInt8.toNat = 2 ^ n.val - 1 := by decide
  intro w hw
  have := hall ⟨w.toNat, Nat.lt_succ_of_le hw⟩
  rwa [UInt32.ofNat_toNat] at this

/-- A group is the number that the byte shows in its place. -/
theorem toNat_group (byte : UInt8) (below w : UInt32) (hbelow : below.toNat < 8)
    (hw : w.toNat ≤ 8) :
    ((byte >>> below.toUInt8) &&& (((1 : UInt16) <<< w.toUInt16) - 1).toUInt8).toNat =
      byte.toNat / 2 ^ below.toNat % 2 ^ w.toNat := by
  have hshift : below.toUInt8.toNat % 8 = below.toNat := by
    rw [UInt32.toNat_toUInt8]
    omega
  rw [UInt8.toNat_and, toNat_mask hw, UInt8.toNat_shiftRight, hshift,
    Nat.and_two_pow_sub_one_eq_mod, Nat.shiftRight_eq_div_pow]

/-- One cut takes the first group and leaves the bits below it. -/
theorem exists_cutGroups_cons (byte : UInt8) {shift w : UInt32} {widths : List UInt32}
    {groups : List UInt8} (hpos : 1 ≤ w.toNat) (hw : w ≤ shift) (hshift : shift.toNat ≤ 8)
    (hcut : cutGroups byte (shift - w) widths = .gives groups) :
    ∃ group, cutGroups byte shift (w :: widths) = .gives (group :: groups) ∧
      group.toNat = byte.toNat / 2 ^ (shift - w).toNat % 2 ^ w.toNat := by
  have hle : w.toNat ≤ shift.toNat := UInt32.le_iff_toNat_le.1 hw
  have hbelow : (shift - w).toNat = shift.toNat - w.toNat := UInt32.toNat_sub_of_le _ _ hw
  refine ⟨_, ?_, toNat_group byte (shift - w) w (by omega) (by omega)⟩
  rw [cutGroups, Checked.sub, if_pos hw, Call.gives_bind, Checked.shiftLeft, if_pos (by omega),
    Call.gives_bind, Checked.shiftRight, if_pos (by omega), Call.gives_bind, hcut]
  rfl

/-- Cutting the low bits of a byte, as many as the widths add up to, never panics. It gives groups
that fit into their widths and show these bits. -/
theorem exists_cutGroups (byte : UInt8) {widths : List UInt32} {shift : UInt32}
    (hpos : ∀ w ∈ widths, 1 ≤ w.toNat) (htotal : totalWidth widths = shift.toNat)
    (hle : shift.toNat ≤ 8) :
    ∃ groups, cutGroups byte shift widths = .gives groups ∧
      List.Forall₂ FitsWidth widths groups ∧
      joinGroups widths groups = Bits.ofNat shift.toNat byte.toNat := by
  induction widths generalizing shift with
  | nil =>
    rw [← htotal]
    exact ⟨[], rfl, .nil, rfl⟩
  | cons w widths ih =>
    rw [totalWidth_cons] at htotal
    have hw : w ≤ shift := UInt32.le_iff_toNat_le.2 (by omega)
    have hbelow : (shift - w).toNat = totalWidth widths := by
      rw [UInt32.toNat_sub_of_le _ _ hw]
      omega
    obtain ⟨groups, hcut, hfit, hjoin⟩ :=
      ih (fun v hv => hpos v (.tail _ hv)) hbelow.symm (by omega)
    obtain ⟨group, hcut, hgroup⟩ := exists_cutGroups_cons byte (hpos w (.head _)) hw hle hcut
    refine ⟨group :: groups, hcut, .cons ?_ hfit, ?_⟩
    · rw [FitsWidth, hgroup]
      exact Nat.mod_lt _ (Nat.two_pow_pos _)
    · have hsplit : shift.toNat = w.toNat + (shift - w).toNat := by omega
      rw [hsplit, Bits.ofNat_add, ← hjoin, ← Bits.ofNat_mod w.toNat _ (Nat.le_refl _), ← hgroup]
      rfl

/-! ## Bit groups as they are read -/

namespace Read

variable {widths : List UInt32}

/-- Widths whose sum is no word panic. -/
theorem split_of_le (h : 2 ^ 32 ≤ totalWidth widths) (byte : UInt8) :
    split byte widths = .panics := by
  rw [split, splitByte, Checked.sum_eq, if_neg (Nat.not_lt.2 h), Call.panics_bind,
    Call.panics_bind]

/-- Widths that do not divide a byte are refused if their sum is a word. -/
theorem split_of_not_dividesByte (hlt : totalWidth widths < 2 ^ 32) (h : ¬ DividesByte widths)
    (byte : UInt8) : split byte widths = .gives (.error (uncovered widths)) := by
  rw [split, splitByte, Checked.sum_eq, if_pos hlt, Call.gives_bind,
    if_neg (mt (covers_iff_dividesByte hlt).1 h)]
  rfl

/-- A byte is split into groups of widths that divide it. -/
theorem exists_split_of_dividesByte (h : DividesByte widths) (byte : UInt8) :
    ∃ groups, split byte widths = .gives (.ok groups) ∧ List.Forall₂ FitsWidth widths groups ∧
      joinGroups widths groups = Bits.ofNat 8 byte.toNat := by
  have hlt : totalWidth widths < 2 ^ 32 := by
    rw [h.2]
    decide
  have hshift : totalWidth widths = (8 : UInt32).toNat := h.2
  obtain ⟨groups, hcut, hgroups⟩ := exists_cutGroups byte h.1 hshift (Nat.le_refl 8)
  refine ⟨groups, ?_, hgroups⟩
  rw [split, splitByte, Checked.sum_eq, if_pos hlt, Call.gives_bind,
    if_pos ((covers_iff_dividesByte hlt).2 h), hcut]
  rfl

theorem split_eq_panics_iff {byte : UInt8} :
    split byte widths = .panics ↔ 2 ^ 32 ≤ totalWidth widths := by
  constructor
  · intro h
    refine Nat.not_lt.1 fun hlt => ?_
    by_cases hdivides : DividesByte widths
    · obtain ⟨groups, hsplit, -⟩ := exists_split_of_dividesByte hdivides byte
      rw [h] at hsplit
      cases hsplit
    · rw [split_of_not_dividesByte hlt hdivides] at h
      cases h
  · exact fun h => split_of_le h byte

/-- A byte is cut into groups of any widths that divide it. Each group is a number of its width, and
the groups in their widths are the bits of the byte. Other widths are refused as a misuse, as long
as their sum is a 32-bit word; those whose sum is not, and only those, panic. -/
theorem split_exact (byte : UInt8) (widths : List UInt32) :
    (DividesByte widths → ∃ groups, split byte widths = .gives (.ok groups) ∧
      List.Forall₂ FitsWidth widths groups ∧
      joinGroups widths groups = Bits.ofNat 8 byte.toNat) ∧
    (¬ DividesByte widths → totalWidth widths < 2 ^ 32 →
      ∃ e, split byte widths = .gives (.error e) ∧ e.cause = .runtime) ∧
    (split byte widths = .panics ↔ 2 ^ 32 ≤ totalWidth widths) := by
  refine ⟨fun h => exists_split_of_dividesByte h byte, fun h hlt => ?_, split_eq_panics_iff⟩
  exact ⟨_, split_of_not_dividesByte hlt h byte, rfl⟩

/-- The three flags and the epoch of a byte; without the epoch the widths leave bits over. -/
theorem split_exact_flags :
    DividesByte [1, 1, 1, 5] ∧ ¬ DividesByte [1, 1, 1] ∧ totalWidth [1, 1, 1] < 2 ^ 32 ∧
    (∃ groups, split 163 [1, 1, 1, 5] = .gives (.ok groups) ∧
      List.Forall₂ FitsWidth [1, 1, 1, 5] groups ∧
      joinGroups [1, 1, 1, 5] groups = Bits.ofNat 8 163) ∧
    ∃ e, split 163 [1, 1, 1] = .gives (.error e) ∧ e.cause = .runtime := by
  have hdivides : DividesByte [1, 1, 1, 5] := by decide
  have hthree : ¬ DividesByte [1, 1, 1] := by decide
  have hlt : totalWidth [1, 1, 1] < 2 ^ 32 := by decide
  exact ⟨hdivides, hthree, hlt, (split_exact 163 _).1 hdivides,
    (split_exact 163 _).2.1 hthree hlt⟩

/-- Widths that do not divide a byte panic where they are together eight more than `2 ^ 32`. -/
theorem split_overflow :
    split 163 [4294967295, 9] = .panics ∧ totalWidth [4294967295, 9] = 2 ^ 32 + 8 ∧
      ¬ DividesByte [4294967295, 9] :=
  ⟨rfl, by decide, by decide⟩

end Read

end NanoLedger
