/-
# Byte strings

Keys, values, fields, arguments and everything on the wire are byte strings: lists of octets. This
module holds what the rest of the library asks of one: its UTF-8 text, its comparison up to the case
of ASCII letters, and the two-digit hexadecimal name of an octet. It also fixes `Dict`, the finite
maps keyed by byte strings: ordered by key, and equal as soon as every look-up agrees.
-/
import Std.Data.ExtTreeMap

namespace Keyspace

/-- A byte string. -/
abbrev Bytes := List UInt8

/-- A finite map from byte strings, listed in bytewise order of its keys. Two such maps with the same
look-ups are equal. -/
abbrev Dict (α : Type) := Std.ExtTreeMap Bytes α compare

namespace Bytes

/-- The UTF-8 form of a text. -/
def ofString (s : String) : Bytes := s.toList.flatMap String.utf8EncodeChar

/-- An ASCII capital becomes the small letter; every other octet stays. -/
def lowerByte (b : UInt8) : UInt8 := if 65 ≤ b ∧ b ≤ 90 then b + 32 else b

/-- ASCII letters in lower case. -/
def lower (bs : Bytes) : Bytes := bs.map lowerByte

/-- Equality up to the case of ASCII letters. -/
def sameIgnoringCase (a b : Bytes) : Bool := lower a == lower b

/-- An octet as `0x` and two lower-case hexadecimal digits. -/
def hexByte (b : UInt8) : String :=
  String.ofList ['0', 'x', Nat.digitChar (b.toNat / 16), Nat.digitChar (b.toNat % 16)]

@[simp] theorem ofString_empty : ofString "" = [] := rfl

@[simp] theorem length_lower (bs : Bytes) : (lower bs).length = bs.length := by simp [lower]

end Bytes
end Keyspace
