/-
# Decimal numerals

The integers of the wire and of command arguments: an optional `-` and at least one decimal digit,
nothing else, within the range of a signed 64-bit word. Leading zeros are allowed when reading and
never written.

A numeral is read digit by digit in a word of that size. The sign goes to every digit, so that the least
word, which has no positive counterpart, can be read.

Key definitions: `parse?` reads a numeral, `integer` and `natural` write one.
-/
import Keyspace.Bytes
import Keyspace.Word

namespace Keyspace
namespace Decimal

/-- The octet is one of the ten digits. -/
def isDigit (b : UInt8) : Bool := 48 ≤ b && b ≤ 57

/-- A word with one more digit behind it, which counts away from zero. Missing if the octet is no digit or
a step leaves the range of a word. -/
def push? (negative : Bool) (value : Int64) (b : UInt8) : Option Int64 :=
  if isDigit b then do
    let tens ← Word.mul? value 10
    let digit := Int64.ofNat (b.toNat - 48)
    if negative then Word.sub? tens digit else Word.add? tens digit
  else none

/-- The digits behind the sign, at least one. -/
def parseDigits? (negative : Bool) (digits : Bytes) : Option Int64 :=
  if digits = [] then none else digits.foldlM (push? negative) 0

/-- The minus sign. -/
def minus : UInt8 := 45

/-- A numeral as a 64-bit integer; one outside that range is refused. -/
def parse? : Bytes → Option Int64
  | [] => none
  | b :: bs => if b = minus then parseDigits? true bs else parseDigits? false (b :: bs)

/-- The digits of a number, without leading zeros. -/
def natural (n : Nat) : Bytes := (Nat.toDigits 10 n).map Char.toUInt8

/-- The numeral of an integer. -/
def integer : Int → Bytes
  | .ofNat n => natural n
  | .negSucc n => minus :: natural (n + 1)

end Decimal
end Keyspace
