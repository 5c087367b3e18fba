import NanoLedger.Json
import NanoLedger.Record.Schema

/-!
# Peers

A peer is an IPv6 endpoint, an address of eight 16-bit groups and a port. Addresses of the block
`::ffff:0:0/96` stand for IPv4 addresses. The text of an endpoint writes each group in lower-case
hexadecimal without leading zeros and replaces the longest run of at least two zero groups, the
first one of several, by `::`.
-/

namespace NanoLedger

/-- An address and a port. -/
structure Endpoint where
  address : Octets 16
  port : UInt16
deriving DecidableEq

namespace Endpoint

/-- The 16-bit groups of the address. -/
def groupsOf : Bytes → List Nat
  | hi :: lo :: rest => (hi.toNat * 256 + lo.toNat) :: groupsOf rest
  | _ => []

/-- The eight groups of an endpoint's address. -/
def groups (e : Endpoint) : List Nat := groupsOf e.address.bytes

/-- The number of zero groups from a position on. -/
def zeroRun (groups : List Nat) (start : Nat) : Nat :=
  ((groups.drop start).takeWhile (· = 0)).length

/-- The position of the first longest run of zero groups. -/
def longestRun (groups : List Nat) : Nat :=
  (List.range groups.length).foldl
    (fun best i => if zeroRun groups best < zeroRun groups i then i else best) 0

/-- Groups in hexadecimal, with colons between them. -/
def colonText (groups : List Nat) : String := String.intercalate ":" (groups.map Hex.lowerDigits)

/-- The text of the groups, with the longest run of zeros left out. -/
def compressed (groups : List Nat) : String :=
  let start := longestRun groups
  let run := zeroRun groups start
  if run < 2 then colonText groups
  else colonText (groups.take start) ++ "::" ++ colonText (groups.drop (start + run))

/-- The IPv4 address that the endpoint's address stands for. -/
def ipv4? (e : Endpoint) : Option Bytes :=
  let mark : Bytes := List.replicate 10 0 ++ [255, 255]
  if e.address.bytes.take 12 = mark then some (e.address.bytes.drop 12) else none

/-- An IPv4 address in decimal, with dots between its bytes. -/
def dotted (bytes : Bytes) : String :=
  String.intercalate "." (bytes.map fun b => toString b.toNat)

/-- The text of the address. -/
def addressText (e : Endpoint) : String :=
  match e.ipv4? with
  | some v4 => "::ffff:" ++ dotted v4
  | none => compressed e.groups

/-- The text of the endpoint: address in brackets, colon, port. -/
def text (e : Endpoint) : String := "[" ++ e.addressText ++ "]:" ++ toString e.port.toNat

/-- An endpoint in a key: sixteen bytes of address and a big-endian port. -/
def layout : Layout Endpoint :=
  ((Layout.octets 16).pair (Layout.word16 .bigEndian)).map
    (fun (address, port) => { address, port }) (fun e => (e.address, e.port))
    (fun _ => rfl) (fun _ => rfl)

@[simp] theorem write_layout (e : Endpoint) :
    layout.write e = e.address.bytes ++ ByteOrder.bigEndian.encode 2 e.port.toNat := rfl

end Endpoint

/-- An entry of the table `peers`. -/
structure PeerInfo where
  endpoint : Endpoint
deriving DecidableEq

namespace PeerInfo

/-- The endpoint is the key; the value holds nothing. -/
def schema : Schema PeerInfo Endpoint Unit where
  key := Endpoint.layout
  value := Layout.empty
  join endpoint _ := { endpoint }
  keyPart p := p.endpoint
  valuePart _ := ()
  keyPart_join _ _ := rfl
  valuePart_join _ _ := rfl

/-- The record of a key and a value. -/
def decode (key value : Bytes) : Except LedgerError PeerInfo := schema.decode key value

/-- Whether the peer's address stands for an IPv4 address. -/
def isIpv4 (p : PeerInfo) : Bool := p.endpoint.ipv4?.isSome

/-- The text of the peer: an IPv4 address in decimal, or the endpoint in brackets, and the port. -/
def address (p : PeerInfo) : String :=
  match p.endpoint.ipv4? with
  | some v4 => Endpoint.dotted v4 ++ ":" ++ toString p.endpoint.port.toNat
  | none => p.endpoint.text

/-- The fields of the record as JSON. -/
def fields (p : PeerInfo) : List (String × Json) :=
  [("address", .text p.address), ("port", .number p.endpoint.port.toNat), ("ipv4", .bool p.isIpv4)]

/-- The record as JSON. -/
def json (p : PeerInfo) : Json := .object p.fields

end PeerInfo

end NanoLedger
