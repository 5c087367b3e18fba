import NanoLedger.Bytes.Radix

/-!
# The hash function BLAKE2b

The unkeyed hash of a byte string, with a digest of any length up to 64 bytes. The message is cut
into blocks of sixteen little-endian words, the last one filled up with zeros, and each block is
mixed into a state of eight words in twelve rounds.
-/

namespace NanoLedger

namespace Blake2b

/-- The initial state, before the digest length is mixed in. -/
def initial : Vector UInt64 8 :=
  #v[0x6a09e667f3bcc908, 0xbb67ae8584caa73b, 0x3c6ef372fe94f82b, 0xa54ff53a5f1d36f1,
    0x510e527fade682d1, 0x9b05688c2b3e6c1f, 0x1f83d9abfb41bd6b, 0x5be0cd19137e2179]

/-- The order in which the message words enter each round. -/
def schedule : List (Vector (Fin 16) 16) :=
  [#v[0, 1, 2, 3, 4, 5, 6, 7, 8, 9, 10, 11, 12, 13, 14, 15],
   #v[14, 10, 4, 8, 9, 15, 13, 6, 1, 12, 0, 2, 11, 7, 5, 3],
   #v[11, 8, 12, 0, 5, 2, 15, 13, 10, 14, 3, 6, 7, 1, 9, 4],
   #v[7, 9, 3, 1, 13, 12, 11, 14, 2, 6, 5, 10, 4, 0, 15, 8],
   #v[9, 0, 5, 7, 2, 4, 10, 15, 14, 1, 11, 12, 6, 8, 3, 13],
   #v[2, 12, 6, 10, 0, 11, 8, 3, 4, 13, 7, 5, 15, 14, 1, 9],
   #v[12, 5, 1, 15, 14, 13, 4, 10, 0, 7, 6, 3, 9, 2, 8, 11],
   #v[13, 11, 7, 14, 12, 1, 3, 9, 5, 0, 15, 4, 8, 6, 2, 10],
   #v[6, 15, 14, 9, 11, 3, 0, 8, 12, 2, 13, 7, 1, 4, 10, 5],
   #v[10, 2, 8, 4, 7, 6, 1, 5, 15, 11, 9, 14, 3, 12, 13, 0],
   #v[0, 1, 2, 3, 4, 5, 6, 7, 8, 9, 10, 11, 12, 13, 14, 15],
   #v[14, 10, 4, 8, 9, 15, 13, 6, 1, 12, 0, 2, 11, 7, 5, 3]]

/-- A word turned right by a number of bits between 1 and 63. -/
def rotateRight (w : UInt64) (bits : UInt64) : UInt64 := (w >>> bits) ||| (w <<< (64 - bits))

/-- Mix two message words into four words of the work vector. -/
def mix (a b c d : Fin 16) (x y : UInt64) (v : Vector UInt64 16) : Vector UInt64 16 :=
  let v := v.set a (v[a] + v[b] + x)
  let v := v.set d (rotateRight (v[d] ^^^ v[a]) 32)
  let v := v.set c (v[c] + v[d])
  let v := v.set b (rotateRight (v[b] ^^^ v[c]) 24)
  let v := v.set a (v[a] + v[b] + y)
  let v := v.set d (rotateRight (v[d] ^^^ v[a]) 16)
  let v := v.set c (v[c] + v[d])
  v.set b (rotateRight (v[b] ^^^ v[c]) 63)

/-- One round: the columns of the work vector, then its diagonals. -/
def round (m : Vector UInt64 16) (v : Vector UInt64 16) (s : Vector (Fin 16) 16) :
    Vector UInt64 16 :=
  let v := mix 0 4 8 12 m[s[0]] m[s[1]] v
  let v := mix 1 5 9 13 m[s[2]] m[s[3]] v
  let v := mix 2 6 10 14 m[s[4]] m[s[5]] v
  let v := mix 3 7 11 15 m[s[6]] m[s[7]] v
  let v := mix 0 5 10 15 m[s[8]] m[s[9]] v
  let v := mix 1 6 11 12 m[s[10]] m[s[11]] v
  let v := mix 2 7 8 13 m[s[12]] m[s[13]] v
  mix 3 4 9 14 m[s[14]] m[s[15]] v

/-- Mix a block into the state. `count` is the number of message bytes up to the end of the block. -/
def compress (h : Vector UInt64 8) (m : Vector UInt64 16) (count : Nat) (last : Bool) :
    Vector UInt64 8 :=
  let v : Vector UInt64 16 := h ++ initial
  let v := v.set 12 (v[12] ^^^ UInt64.ofNat count)
  let v := v.set 13 (v[13] ^^^ UInt64.ofNat (count / UInt64.size))
  let v := if last then v.set 14 (~~~ v[14]) else v
  let v := schedule.foldl (round m) v
  Vector.ofFn fun i : Fin 8 => h[i] ^^^ v[i.val] ^^^ v[i.val + 8]

/-- The words of the block with the given index; bytes past the end of the message are zero. -/
def block (message : Bytes) (index : Nat) : Vector UInt64 16 :=
  Vector.ofFn fun i : Fin 16 =>
    let word := (message.drop (128 * index + 8 * i.val)).take 8
    UInt64.ofNat (ByteOrder.littleEndian.decode word)

/-- The state after the whole message, for a digest of `size` bytes. -/
def state (size : Nat) (message : Bytes) : Vector UInt64 8 :=
  let count := max 1 ((message.length + 127) / 128)
  let h := initial.set 0 (initial[0] ^^^ 0x01010000 ^^^ UInt64.ofNat size)
  (List.range count).foldl (fun h i =>
    compress h (block message i) (min (128 * (i + 1)) message.length) (i + 1 = count)) h

/-- The digest of `size` bytes, at most 64, of a message. -/
def digest (size : Nat) (message : Bytes) : Octets size :=
  let h := state size message
  ⟨(List.range size).map fun i =>
    ((h.toList[i / 8]?.getD 0) >>> UInt64.ofNat (8 * (i % 8))).toUInt8, by simp⟩

end Blake2b

end NanoLedger
