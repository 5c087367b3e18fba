import NanoLedger.Address.Blake2b
import NanoLedger.Address.Symbols
import NanoLedger.Layout

/-!
# Accounts and their addresses

An account is a public key of 32 bytes. Its address is the prefix `nano_`, the key in 52 symbols
after four padding bits, and the five bytes of a checksum in 8 symbols. The older prefix `xrb_` is
read but never written. The format does not depend on the digest behind the checksum, so it is
given for any (`Account.addressBy`, `Account.ofAddressBy`); addresses of the network use BLAKE2b.
-/

namespace NanoLedger

/-- An account, given by its public key. -/
structure Account where
  key : Octets 32
deriving DecidableEq

/-- A digest of keys, of five bytes. -/
abbrev KeyDigest := Octets 32 → Octets 5

/-- The BLAKE2b digest, on which the checksums of the network rest. -/
def KeyDigest.blake2b : KeyDigest := fun key => Blake2b.digest 5 key.bytes

namespace Account

/-- The prefix of every address that is written. -/
def addressStart : String := "nano_"

/-- The prefix of addresses written in former times. -/
def formerAddressStart : String := "xrb_"

/-- The checksum of a key: its digest, last byte first. -/
def checksumBy (digest : KeyDigest) (key : Octets 32) : Octets 5 :=
  ⟨(digest key).bytes.reverse, by simp [(digest key).length_eq]⟩

/-- The symbols of an address, without its prefix. -/
def symbolsBy (digest : KeyDigest) (a : Account) : List Char :=
  Symbols.encode 4 a.key.bytes ++ Symbols.encode 0 (checksumBy digest a.key).bytes

/-- The address of an account under a digest. -/
def addressBy (digest : KeyDigest) (a : Account) : String :=
  addressStart ++ String.ofList (a.symbolsBy digest)

/-- The address of an account. -/
def address (a : Account) : String := a.addressBy .blake2b

/-- What follows a given beginning of a text. -/
def afterStart? (start : String) (text : List Char) : Option (List Char) :=
  if start.toList.isPrefixOf text then some (text.drop start.toList.length) else none

/-- The error for a text that is no address. -/
def badAddress (reason text : String) : LedgerError :=
  ({ cause := .invalidAddress, context := reason } : LedgerError).join text

/-- The account that the symbols of an address stand for; `text` is the whole address. -/
def ofSymbolsBy (digest : KeyDigest) (text : String) (symbols : List Char) :
    Except LedgerError Account :=
  if symbols.length ≠ 60 ∨ symbols.any (fun c => 128 ≤ c.toNat) then
    .error (badAddress "bad length" text)
  else
    let read := do
      let key ← Symbols.decode 4 32 (symbols.take 52)
      let check ← Symbols.decode 0 5 (symbols.drop 52)
      return (key, check)
    match read with
    | .error fault => .error (badAddress fault.text text)
    | .ok (key, check) =>
      if checksumBy digest key = check then .ok ⟨key⟩
      else .error (badAddress "checksum mismatch" text)

/-- The account of an address under a digest. -/
def ofAddressBy (digest : KeyDigest) (text : String) : Except LedgerError Account :=
  match (afterStart? addressStart text.toList).or (afterStart? formerAddressStart text.toList) with
  | none => .error (badAddress "unknown prefix" text)
  | some symbols => ofSymbolsBy digest text symbols

/-- The account of an address. -/
def ofAddress (text : String) : Except LedgerError Account := ofAddressBy .blake2b text

/-- The account as it is shown to a programmer. -/
def inspect (a : Account) : String := "Account(" ++ a.address ++ ")"

/-- An account in a key or a value: its public key. -/
def layout : Layout Account :=
  (Layout.octets 32).map mk key (fun _ => rfl) (fun _ => rfl)

@[simp] theorem write_layout (a : Account) : layout.write a = a.key.bytes := rfl

end Account

end NanoLedger
