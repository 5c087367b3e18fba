import NanoLedger.Address
import NanoLedger.Proofs.SymbolCodec

/-!
# Which texts are addresses

An account has exactly two addresses, the one that is written for it and the same symbols behind the
prefix of former times. Every other text is refused, and always with the same cause. All this holds
for any digest of keys, as the checksum enters only through its being a function of the key
(`Account.ofAddressBy_exact`).

A text is read in two steps, its prefix (`Account.ofAddressBy_eq_ok`) and its symbols
(`Account.ofSymbolsBy_eq_ok`), and each of them is undone by writing.
-/

namespace NanoLedger

namespace Account

/-- The address of an account with the prefix of former times in place of the one that is
written. -/
def formerAddressBy (digest : KeyDigest) (a : Account) : String :=
  formerAddressStart ++ String.ofList ((a.addressBy digest).toList.drop addressStart.toList.length)

section

variable {digest : KeyDigest} {a b : Account} {text : String} {symbols : List Char}

/-! ## Symbols -/

theorem length_symbolsBy (digest : KeyDigest) (a : Account) :
    (Symbols.encode 4 a.key.bytes).length = 52 ∧ (a.symbolsBy digest).length = 60 := by
  have hkey : (Symbols.encode 4 a.key.bytes).length = 52 := by
    rw [Symbols.length_encode, a.key.length_eq]
  refine ⟨hkey, ?_⟩
  rw [symbolsBy, List.length_append, hkey, Symbols.length_encode, Octets.length_eq]

theorem symbolsBy_lt {c : Char} (h : c ∈ a.symbolsBy digest) : c.toNat < 128 := by
  rcases List.mem_append.1 h with h | h
  · exact Symbols.encode_lt h
  · exact Symbols.encode_lt h

/-- Symbols are read as an account exactly if they are the ones that are written for it. -/
theorem ofSymbolsBy_eq_ok :
    ofSymbolsBy digest text symbols = .ok a ↔ symbols = a.symbolsBy digest := by
  constructor
  · intro h
    rw [ofSymbolsBy] at h
    split at h
    · cases h
    · cases hkey : Symbols.decode 4 32 (symbols.take 52) with
      | error e =>
        simp only [hkey, bind, Except.bind] at h
        cases h
      | ok key =>
        cases hcheck : Symbols.decode 0 5 (symbols.drop 52) with
        | error e =>
          simp only [hkey, hcheck, bind, Except.bind] at h
          cases h
        | ok check =>
          simp only [hkey, hcheck, bind, Except.bind, pure, Except.pure] at h
          split at h
          · next hsum =>
            cases h
            obtain ⟨-, hbody⟩ := Symbols.decode_eq_ok_iff.1 hkey
            obtain ⟨-, htail⟩ := Symbols.decode_eq_ok_iff.1 hcheck
            rw [symbolsBy, hsum, ← hbody, ← htail, List.take_append_drop]
          · cases h
  · rintro rfl
    obtain ⟨hbody, hlen⟩ := length_symbolsBy digest a
    have hkey : Symbols.decode 4 32 ((a.symbolsBy digest).take 52) = .ok a.key :=
      Symbols.decode_eq_ok_iff.2 ⟨by decide, List.take_left' hbody⟩
    have hcheck : Symbols.decode 0 5 ((a.symbolsBy digest).drop 52) =
        .ok (checksumBy digest a.key) :=
      Symbols.decode_eq_ok_iff.2 ⟨by decide, List.drop_left' hbody⟩
    have hascii : ¬ ((a.symbolsBy digest).any (fun c => 128 ≤ c.toNat) = true) := by
      intro hany
      obtain ⟨c, hc, hge⟩ := List.any_eq_true.1 hany
      exact absurd (symbolsBy_lt hc) (Nat.not_lt.2 (of_decide_eq_true hge))
    rw [ofSymbolsBy, if_neg (not_or.2 ⟨fun hne => hne hlen, hascii⟩)]
    simp only [hkey, hcheck, bind, Except.bind, pure, Except.pure]
    rw [if_pos trivial]

/-- Symbols that are refused are refused as a bad address. -/
theorem ofSymbolsBy_cases (digest : KeyDigest) (text : String) (symbols : List Char) :
    (∃ a, ofSymbolsBy digest text symbols = .ok a) ∨
      ∃ reason, ofSymbolsBy digest text symbols = .error (badAddress reason text) := by
  rw [ofSymbolsBy]
  split
  · exact .inr ⟨_, rfl⟩
  · dsimp only
    split
    · exact .inr ⟨_, rfl⟩
    · split
      · exact .inl ⟨_, rfl⟩
      · exact .inr ⟨_, rfl⟩

/-! ## Prefixes -/

theorem afterStart?_eq_some {start : String} {text rest : List Char} :
    afterStart? start text = some rest ↔ text = start.toList ++ rest := by
  rw [afterStart?]
  constructor
  · intro h
    split at h
    · next hstart =>
      cases h
      obtain ⟨rest, rfl⟩ := List.isPrefixOf_iff_prefix.1 hstart
      rw [List.drop_left]
    · cases h
  · rintro rfl
    rw [if_pos (List.isPrefixOf_iff_prefix.2 (List.prefix_append _ _)), List.drop_left]

/-- No text has both prefixes. -/
theorem afterStart?_former (symbols : List Char) :
    afterStart? addressStart (formerAddressStart.toList ++ symbols) = none := rfl

theorem toList_addressBy (digest : KeyDigest) (a : Account) :
    (a.addressBy digest).toList = addressStart.toList ++ a.symbolsBy digest := by
  rw [addressBy, String.toList_append, String.toList_ofList]

theorem toList_formerAddressBy (digest : KeyDigest) (a : Account) :
    (a.formerAddressBy digest).toList = formerAddressStart.toList ++ a.symbolsBy digest := by
  rw [formerAddressBy, String.toList_append, String.toList_ofList, toList_addressBy, List.drop_left]

/-- A text is read as an account exactly if it is one of the account's two addresses. -/
theorem ofAddressBy_eq_ok :
    ofAddressBy digest text = .ok a ↔
      text = a.addressBy digest ∨ text = a.formerAddressBy digest := by
  rw [← String.toList_inj, ← String.toList_inj, toList_addressBy, toList_formerAddressBy,
    ofAddressBy]
  constructor
  · intro h
    cases hnew : afterStart? addressStart text.toList with
    | some symbols =>
      rw [hnew] at h
      rw [afterStart?_eq_some.1 hnew, ofSymbolsBy_eq_ok.1 h]
      exact .inl rfl
    | none =>
      cases hformer : afterStart? formerAddressStart text.toList with
      | some symbols =>
        rw [hnew, hformer] at h
        rw [afterStart?_eq_some.1 hformer, ofSymbolsBy_eq_ok.1 h]
        exact .inr rfl
      | none =>
        rw [hnew, hformer] at h
        cases h
  · rintro (htext | htext)
    · rw [afterStart?_eq_some.2 htext]
      exact ofSymbolsBy_eq_ok.2 rfl
    · rw [htext, afterStart?_former, afterStart?_eq_some.2 rfl]
      exact ofSymbolsBy_eq_ok.2 rfl

/-- A text that is refused is refused as a bad address. -/
theorem ofAddressBy_cases (digest : KeyDigest) (text : String) :
    (∃ a, ofAddressBy digest text = .ok a) ∨
      ∃ reason, ofAddressBy digest text = .error (badAddress reason text) := by
  rw [ofAddressBy]
  split
  · exact .inr ⟨_, rfl⟩
  · exact ofSymbolsBy_cases digest text _

end

/-! ## The codec of addresses -/

/-- The codec of addresses is exact, whatever digest the checksum is made of. Both addresses of an
account are read as that account; only they are; every other text is refused as a bad address. So no
two accounts share an address, and an address with the prefix that is written is the one that is
written for what it is read as. -/
theorem ofAddressBy_exact (digest : KeyDigest) :
    (∀ a : Account, ofAddressBy digest (a.addressBy digest) = .ok a) ∧
    (∀ a : Account, ofAddressBy digest (a.formerAddressBy digest) = .ok a) ∧
    (∀ (text : String) (a : Account), ofAddressBy digest text = .ok a ↔
      text = a.addressBy digest ∨ text = a.formerAddressBy digest) ∧
    (∀ text : String,
      (∀ a : Account, text ≠ a.addressBy digest ∧ text ≠ a.formerAddressBy digest) →
        ∃ e, ofAddressBy digest text = .error e ∧ e.cause = .invalidAddress) ∧
    (∀ a b : Account, a.addressBy digest = b.addressBy digest → a = b) ∧
    (∀ (text : String) (a : Account), ofAddressBy digest text = .ok a →
      addressStart.toList <+: text.toList → a.addressBy digest = text) := by
  have hread : ∀ a : Account, ofAddressBy digest (a.addressBy digest) = .ok a :=
    fun a => ofAddressBy_eq_ok.2 (.inl rfl)
  refine ⟨hread, fun a => ofAddressBy_eq_ok.2 (.inr rfl), fun text a => ofAddressBy_eq_ok,
    ?_, ?_, ?_⟩
  · intro text hnone
    obtain ⟨a, ha⟩ | ⟨reason, herror⟩ := ofAddressBy_cases digest text
    · rcases ofAddressBy_eq_ok.1 ha with h | h
      · exact absurd h (hnone a).1
      · exact absurd h (hnone a).2
    · exact ⟨_, herror, rfl⟩
  · intro a b hab
    have ha := hread a
    rw [hab, hread b] at ha
    exact (Except.ok.inj ha).symm
  · intro text a ha hstart
    rcases ofAddressBy_eq_ok.1 ha with h | h
    · exact h.symm
    · rw [h, toList_formerAddressBy] at hstart
      obtain ⟨rest, hrest⟩ := hstart
      have hsome := afterStart?_eq_some.2 hrest.symm
      rw [afterStart?_former] at hsome
      cases hsome

/-- The address of the account of zeros under BLAKE2b, and a text with a prefix of another
network. -/
theorem ofAddressBy_exact_zero :
    address ⟨.zero 32⟩ = "nano_1111111111111111111111111111111111111111111111111111hifc8npp" ∧
      ofAddress "nano_1111111111111111111111111111111111111111111111111111hifc8npp" =
        .ok ⟨.zero 32⟩ ∧
      ofAddress "xrb_1111111111111111111111111111111111111111111111111111hifc8npp" =
        .ok ⟨.zero 32⟩ ∧
      (∀ a : Account, "ban_1" ≠ a.address ∧ "ban_1" ≠ a.formerAddressBy .blake2b) ∧
      ∃ e, ofAddress "ban_1" = .error e ∧ e.cause = .invalidAddress := by
  obtain ⟨hread, hformer, -, hrefuse, -, hback⟩ := ofAddressBy_exact .blake2b
  have haddress : address ⟨.zero 32⟩ =
      "nano_1111111111111111111111111111111111111111111111111111hifc8npp" := by decide +kernel
  have hzero := hread ⟨.zero 32⟩
  have hzero' := hformer ⟨.zero 32⟩
  have hback := hback _ _ hzero (by rw [toList_addressBy]; exact List.prefix_append _ _)
  have hnone : ∀ a : Account, "ban_1" ≠ a.address ∧ "ban_1" ≠ a.formerAddressBy .blake2b := by
    intro a
    constructor
    · intro h
      have h := congrArg String.toList h
      rw [address, toList_addressBy] at h
      cases h
    · intro h
      have h := congrArg String.toList h
      rw [toList_formerAddressBy] at h
      cases h
  refine ⟨hback.trans haddress, ?_, ?_, hnone, hrefuse "ban_1" hnone⟩
  · rw [← haddress]
    exact hzero
  · have hformerText : formerAddressBy .blake2b ⟨.zero 32⟩ =
        "xrb_1111111111111111111111111111111111111111111111111111hifc8npp" := by
      rw [formerAddressBy, ← address, haddress]
      decide +kernel
    rw [← hformerText]
    exact hzero'

end Account

end NanoLedger
