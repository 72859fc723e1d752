/-
# SipHash

The keyed hash SipHash-c-d of a byte string: the message is absorbed in little-endian 64-bit words,
`c` rounds each; the last word carries the remaining octets and, in its highest octet, the length of
the message; `d` rounds finish. `SipHash.ofKey` is the hash that places keys: SipHash-1-3 under the
zero key, of the key's length in eight octets followed by the key.
-/
import Keyspace.Bytes

namespace Keyspace
namespace SipHash

/-- The four words of the hash's inner state. -/
structure State where
  v0 : UInt64
  v1 : UInt64
  v2 : UInt64
  v3 : UInt64
  deriving DecidableEq, Repr

/-- A word turned left by `n` bits, `0 < n < 64`. -/
def rotate (x n : UInt64) : UInt64 := x <<< n ||| x >>> (64 - n)

namespace State

/-- The state before any word, under a key of two words. -/
def start (k0 k1 : UInt64) : State where
  v0 := k0 ^^^ 0x736f6d6570736575
  v1 := k1 ^^^ 0x646f72616e646f6d
  v2 := k0 ^^^ 0x6c7967656e657261
  v3 := k1 ^^^ 0x7465646279746573

/-- One round. -/
def round (s : State) : State :=
  let v0 := s.v0 + s.v1
  let v1 := rotate s.v1 13 ^^^ v0
  let v0 := rotate v0 32
  let v2 := s.v2 + s.v3
  let v3 := rotate s.v3 16 ^^^ v2
  let v0 := v0 + v3
  let v3 := rotate v3 21 ^^^ v0
  let v2 := v2 + v1
  let v1 := rotate v1 17 ^^^ v2
  let v2 := rotate v2 32
  ⟨v0, v1, v2, v3⟩

/-- Several rounds. -/
def rounds : Nat → State → State
  | 0, s => s
  | n + 1, s => rounds n s.round

/-- Takes in one word of the message. -/
def absorb (c : Nat) (s : State) (word : UInt64) : State :=
  let s := rounds c { s with v3 := s.v3 ^^^ word }
  { s with v0 := s.v0 ^^^ word }

/-- The hash that the state stands for. -/
def finish (d : Nat) (s : State) : UInt64 :=
  let s := rounds d { s with v2 := s.v2 ^^^ 0xff }
  s.v0 ^^^ s.v1 ^^^ s.v2 ^^^ s.v3

end State

/-- The word whose octets are given, lowest first. -/
def word (octets : Bytes) : UInt64 := octets.foldr (fun b w => w <<< 8 ||| b.toUInt64) 0

/-- The words of a message; `last` is what the final word holds above its octets. -/
def words (last : UInt64) : Bytes → List UInt64
  | b0 :: b1 :: b2 :: b3 :: b4 :: b5 :: b6 :: b7 :: rest =>
    word [b0, b1, b2, b3, b4, b5, b6, b7] :: words last rest
  | rest => [word rest ||| last]

/-- SipHash-c-d of a message under the key `k0`, `k1`. -/
def hash (c d : Nat) (k0 k1 : UInt64) (message : Bytes) : UInt64 :=
  let last := message.length.toUInt64 <<< 56
  ((words last message).foldl (State.absorb c) (State.start k0 k1)).finish d

/-- A number as eight octets, lowest first. -/
def lengthOctets (n : Nat) : Bytes :=
  (List.range 8).map fun i => (n.toUInt64 >>> (8 * i.toUInt64)).toUInt8

/-- The hash that places a key. -/
def ofKey (key : Bytes) : UInt64 := hash 1 3 0 0 (lengthOctets key.length ++ key)

example : ofKey [] = 13646096770106105413 := by decide +kernel
example : ofKey (Bytes.ofString "a") = 13743199064115861684 := by decide +kernel
example : ofKey (Bytes.ofString "name") = 15289763796252084942 := by decide +kernel
example : ofKey (Bytes.ofString "abcdefghijklmnop") = 8594659398248309665 := by decide +kernel

end SipHash
end Keyspace
