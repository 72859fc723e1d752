/-
# UTF-8 in untrusted bytes

`pieces` cuts a byte string into scalar values and malformed pieces. A malformed piece is as long as
it can be while some well-formed sequence still starts with it, and at least one octet: after the
lead octet only the continuation octets that the encoding allows at that place belong to it, so an
overlong form, a surrogate or a value above U+10FFFF is refused at its second octet.

Key definitions:
* `decode`: the text, or the first flaw and where it lies;
* `decodeLossy`: the text with U+FFFD for each malformed piece.
-/
import Keyspace.Bytes

namespace Keyspace
namespace Utf8

/-! ### Cutting -/

/-- Where the second to fourth octet of a sequence may lie, given its first. An octet that starts no
sequence of several octets allows none. -/
def continuations (lead : UInt8) : List (UInt8 × UInt8) :=
  let tail : UInt8 × UInt8 := (0x80, 0xBF)
  if lead < 0xC2 then []
  else if lead ≤ 0xDF then [tail]
  else if lead = 0xE0 then [(0xA0, 0xBF), tail]
  else if lead = 0xED then [(0x80, 0x9F), tail]
  else if lead ≤ 0xEF then [tail, tail]
  else if lead = 0xF0 then [(0x90, 0xBF), tail, tail]
  else if lead ≤ 0xF3 then [tail, tail, tail]
  else if lead = 0xF4 then [(0x80, 0x8F), tail, tail]
  else []

/-- How many octets at the front lie, one by one, in the given ranges. -/
def fitting : List (UInt8 × UInt8) → Bytes → Nat
  | (lo, hi) :: ranges, b :: bs => if lo ≤ b ∧ b ≤ hi then fitting ranges bs + 1 else 0
  | _, _ => 0

/-- The scalar value at the front, if a well-formed sequence stands there. -/
def firstChar? (bs : Bytes) : Option Char := (bs.take 4).toByteArray.utf8DecodeChar? 0

/-- What a byte string is made of. A malformed piece is `truncated` if the string ends inside a
sequence that was well formed so far. -/
inductive Piece where
  | char (c : Char)
  | malformed (length : Nat) (truncated : Bool)
  deriving DecidableEq, Repr

/-- The scalar values and malformed pieces of a byte string, front to back. -/
def pieces : Bytes → List Piece
  | [] => []
  | lead :: rest =>
    match firstChar? (lead :: rest) with
    | some c => .char c :: pieces (rest.drop (c.utf8Size - 1))
    | none =>
      let ranges := continuations lead
      let n := fitting ranges rest
      .malformed (n + 1) (n < ranges.length && n == rest.length) :: pieces (rest.drop n)
termination_by bs => bs.length
decreasing_by all_goals simp only [List.length_drop, List.length_cons]; omega

/-! ### Reading -/

/-- Why a byte string is no text: a malformed sequence, or an end inside a sequence. Both say how
many octets of text stand before it. -/
inductive Flaw where
  | malformed (length index : Nat)
  | truncated (index : Nat)
  deriving DecidableEq, Repr

/-- The wording of a flaw. -/
def Flaw.message : Flaw → String
  | .malformed length index =>
    "invalid utf-8 sequence of " ++ toString length ++ " bytes from index " ++ toString index
  | .truncated index => "incomplete utf-8 byte sequence from index " ++ toString index

/-- The characters of a cut byte string, or its first flaw; `index` octets stand before it. -/
def characters (index : Nat) : List Piece → Except Flaw (List Char)
  | [] => .ok []
  | .char c :: ps => (characters (index + c.utf8Size) ps).map (c :: ·)
  | .malformed _ true :: _ => .error (.truncated index)
  | .malformed length false :: _ => .error (.malformed length index)

/-- The text of a byte string, or its first flaw. -/
def decode (bs : Bytes) : Except Flaw String := (characters 0 (pieces bs)).map String.ofList

/-- The character shown for a piece: itself, or U+FFFD. -/
def Piece.shown : Piece → Char
  | .char c => c
  | .malformed _ _ => '\uFFFD'

/-- The text of a byte string, with U+FFFD in place of each malformed piece. -/
def decodeLossy (bs : Bytes) : String := String.ofList ((pieces bs).map Piece.shown)

end Utf8
end Keyspace
