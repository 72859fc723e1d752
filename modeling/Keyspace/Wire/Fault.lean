/-
# Faults in what was received

Why received octets are neither a request nor a reply. `Fault.message` is the wording. Some faults
leave it clear where the next request may begin (`Fault.resumable`); after the others the stream is
lost.
-/
import Keyspace.Text.Utf8

namespace Keyspace
namespace Wire

/-- What is wrong with received octets. -/
inductive Fault where
  /-- A request begins with another octet than `*`. -/
  | expectedArray (found : UInt8)
  /-- The number of arguments is no number, or negative. -/
  | invalidCount
  /-- An argument begins with another octet than `$`. -/
  | expectedBulk (found : UInt8)
  /-- The length of an argument is no number, or negative and not -1. -/
  | invalidLength
  /-- The octets of a bulk are not followed by CR LF. -/
  | missingTerminator
  /-- A length or a number of elements beyond its limit. -/
  | tooLarge (size max : Nat)
  /-- A reply begins with an octet that opens no kind of value. -/
  | unknownMark (found : UInt8)
  /-- A numeral in a reply is malformed, out of range, or negative where it may not be. -/
  | invalidInteger (text : String)
  /-- A status or error text is not UTF-8. -/
  | invalidText (flaw : Utf8.Flaw)
  /-- Arrays nested beyond the limit. -/
  | tooDeep (limit : Nat)
  deriving DecidableEq, Repr

namespace Fault

/-- The wording of a fault. -/
def message : Fault → String
  | .expectedArray found => "expected '*', got " ++ Bytes.hexByte found
  | .invalidCount => "invalid multibulk length"
  | .expectedBulk found => "expected '$', got " ++ Bytes.hexByte found
  | .invalidLength => "invalid bulk length"
  | .missingTerminator => "bulk string missing trailing CRLF"
  | .tooLarge size max => "message too large: " ++ toString size ++ " (max: " ++ toString max ++ ")"
  | .unknownMark found => "unknown type prefix: " ++ Bytes.hexByte found
  | .invalidInteger text => "invalid integer: " ++ text
  | .invalidText flaw => "invalid UTF-8: " ++ flaw.message
  | .tooDeep limit => "maximum nesting depth exceeded: " ++ toString limit

/-- Whether reading of requests may go on where the fault was noticed. -/
def resumable : Fault → Bool
  | .invalidCount | .expectedBulk _ | .invalidLength | .missingTerminator => true
  | _ => false

end Fault
end Wire
end Keyspace
