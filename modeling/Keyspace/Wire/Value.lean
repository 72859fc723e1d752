/-
# Wire values

A reply is a `Value`. Each line ends with CR LF and its first octet tells the kind:

* `+` a status text, `-` an error text, `:` an integer;
* `$` the length of a bulk, then its octets and another CR LF; length -1 is the null value;
* `*` the number of elements, then the elements.

`Value.encode` writes a value. A CR or LF inside a status or error text would end its line early,
so both are written as spaces; a bulk is written as it is.
-/
import Keyspace.Text.Decimal

namespace Keyspace
namespace Wire

/-! ### Octets with a meaning -/

/-- Carriage return. -/
def cr : UInt8 := 13
/-- Line feed. -/
def lf : UInt8 := 10
/-- The end of every line and of every bulk. -/
def crlf : Bytes := [cr, lf]

/-- The octets that open the five kinds of line. -/
def statusMark : UInt8 := 43
@[inherit_doc statusMark] def errorMark : UInt8 := 45
@[inherit_doc statusMark] def integerMark : UInt8 := 58
@[inherit_doc statusMark] def bulkMark : UInt8 := 36
@[inherit_doc statusMark] def arrayMark : UInt8 := 42

/-! ### Limits -/

/-- The most octets one bulk may have: 512 MiB. -/
def maxBulk : Nat := 512 * 1024 * 1024
/-- The most elements one array may have. -/
def maxArray : Nat := 1024 * 1024
/-- How many arrays may enclose a value that is read. -/
def maxDepth : Nat := 32

end Wire

/-! ### Values -/

/-- A reply value. -/
inductive Value where
  | status (text : String)
  | error (text : String)
  | integer (n : Int64)
  | bulk (data : Bytes)
  | null
  | array (items : List Value)
  deriving Inhabited, BEq

namespace Value
open Wire

/-- The reply to a request that succeeds with nothing to tell. -/
def ok : Value := .status "OK"

/-- The reply to a bare ping. -/
def pong : Value := .status "PONG"

/-- A count. -/
def count (n : Nat) : Value := .integer (Int64.ofNat n)

/-- One for yes and zero for no. -/
def flag (b : Bool) : Value := count b.toNat

/-- A bulk, or null for nothing. -/
def ofOption : Option Bytes → Value
  | some data => .bulk data
  | none => .null

/-- An array of bulks, with null for each missing one. -/
def ofOptions (items : List (Option Bytes)) : Value := .array (items.map ofOption)

/-- The octets of a bulk. -/
def data? : Value → Option Bytes
  | .bulk data => some data
  | _ => none

/-- The elements of an array. -/
def items? : Value → Option (List Value)
  | .array items => some items
  | _ => none

/-! ### Writing -/

/-- A text as the rest of a line: CR and LF become spaces. -/
def lineText (text : String) : Bytes :=
  (Bytes.ofString text).map fun b => if b = cr ∨ b = lf then 32 else b

mutual
/-- The octets of a value. -/
def encode : Value → Bytes
  | .status text => statusMark :: lineText text ++ crlf
  | .error text => errorMark :: lineText text ++ crlf
  | .integer n => integerMark :: Decimal.integer n.toInt ++ crlf
  | .bulk data => bulkMark :: Decimal.natural data.length ++ crlf ++ data ++ crlf
  | .null => bulkMark :: Decimal.integer (-1) ++ crlf
  | .array items => arrayMark :: Decimal.natural items.length ++ crlf ++ encodeAll items
/-- The octets of several values, one after another. -/
def encodeAll : List Value → Bytes
  | [] => []
  | v :: vs => encode v ++ encodeAll vs
end

/-- Writes a value behind what is already written. -/
def appendTo (written : Bytes) (v : Value) : Bytes := written ++ v.encode

/-- No CR and no LF is left in a written text, so it stays on its line. -/
theorem not_mem_lineText (text : String) (b : UInt8) (h : b ∈ lineText text) : b ≠ cr ∧ b ≠ lf := by
  obtain ⟨a, -, rfl⟩ := List.mem_map.1 h
  split
  · decide
  · next ha => exact not_or.1 ha

end Value
end Keyspace
