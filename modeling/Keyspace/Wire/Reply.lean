/-
# Replies

The client's side of the wire: `Reply.read` decodes one value of any kind from the front of a
buffer. It reads what `Value.encode` writes, with the limits on lengths and on nesting enforced. A
fault in a reply ends the conversation, so no octets are ever dropped after one.

Key theorems: `read_bounded` and `read_final`, as for requests.
-/
import Keyspace.Wire.Reader

namespace Keyspace
namespace Wire
namespace Reply

/-- The text of a line. -/
def text (field : Bytes) : Reader String :=
  match Utf8.decode field with
  | .ok s => pure s
  | .error flaw => Reader.fail (.invalidText flaw)

/-- The integer of a line. -/
def integer (field : Bytes) : Reader Int64 :=
  match Decimal.parse? field with
  | some n => pure n
  | none => Reader.fail (.invalidInteger (Utf8.decodeLossy field))

/-- The length on a line: `none` for -1, refused if negative otherwise or above `max`. -/
def length? (max : Nat) (field : Bytes) : Reader (Option Nat) := do
  let n ← integer field
  if n = -1 then pure none
  else if n < 0 then Reader.fail (.invalidInteger (toString n.toInt))
  else if max < n.toInt.toNat then Reader.fail (.tooLarge n.toInt.toNat max)
  else pure (some n.toInt.toNat)

/-- The value of a line with its mark, and of what follows it; `item` reads an element of an array. -/
def body (item : Reader Value) (mark : UInt8) (field : Bytes) : Reader Value :=
  if mark = statusMark then Value.status <$> text field
  else if mark = errorMark then Value.error <$> text field
  else if mark = integerMark then Value.integer <$> integer field
  else if mark = bulkMark then do
    match ← length? maxBulk field with
    | none => return .null
    | some n =>
      let data ← Reader.exactly n
      Reader.terminator
      return .bulk data
  else if mark = arrayMark then do
    match ← length? maxArray field with
    | none => return .null
    | some n => Value.array <$> Reader.times item n
  else Reader.fail (.unknownMark mark)

/-- A value inside which `room - 1` more levels of arrays may open. Without room, any octet at all
is one level too many. -/
def value : Nat → Reader Value
  | 0 => do
    let _ ← Reader.peek
    Reader.fail (.tooDeep maxDepth)
  | room + 1 => do
    let mark ← Reader.octet
    let field ← Reader.line
    body (value room) mark field

/-- A reply: a value enclosed by no array. -/
def read : Reader Value := value (maxDepth + 1)

/-! ### What reading uses -/

section
open Reader

theorem text_bounded (field : Bytes) : Bounded (text field) := by
  unfold text; split
  · exact Bounded.pure _
  · exact Bounded.fail _

theorem text_final (field : Bytes) : Final (text field) := by
  unfold text; split
  · exact Final.pure _
  · exact Final.fail _

theorem integer_bounded (field : Bytes) : Bounded (integer field) := by
  unfold integer; split
  · exact Bounded.pure _
  · exact Bounded.fail _

theorem integer_final (field : Bytes) : Final (integer field) := by
  unfold integer; split
  · exact Final.pure _
  · exact Final.fail _

theorem length?_bounded (max : Nat) (field : Bytes) : Bounded (length? max field) :=
  (integer_bounded field).bind fun _ => (Bounded.pure _).ite ((Bounded.fail _).ite
    ((Bounded.fail _).ite (Bounded.pure _)))

theorem length?_final (max : Nat) (field : Bytes) : Final (length? max field) :=
  (integer_final field).bind (integer_bounded field) fun _ => (Final.pure _).ite
    ((Final.fail _).ite ((Final.fail _).ite (Final.pure _)))

theorem body_bounded {item : Reader Value} (hitem : Bounded item) (mark : UInt8) (field : Bytes) :
    Bounded (body item mark field) := by
  refine (Bounded.map _ (text_bounded _)).ite ((Bounded.map _ (text_bounded _)).ite
    ((Bounded.map _ (integer_bounded _)).ite (Bounded.ite ?_ (Bounded.ite ?_ (Bounded.fail _)))))
  · refine (length?_bounded _ _).bind fun n => ?_
    split
    · exact Bounded.pure _
    · exact (bounded_exactly _).bind fun _ => bounded_terminator.bind fun _ => Bounded.pure _
  · refine (length?_bounded _ _).bind fun n => ?_
    split
    · exact Bounded.pure _
    · exact Bounded.map _ (hitem.times _)

theorem body_final {item : Reader Value} (hb : Bounded item) (hitem : Final item) (mark : UInt8)
    (field : Bytes) : Final (body item mark field) := by
  refine (Final.map _ (text_final _)).ite ((Final.map _ (text_final _)).ite
    ((Final.map _ (integer_final _)).ite (Final.ite ?_ (Final.ite ?_ (Final.fail _)))))
  · refine (length?_final _ _).bind (length?_bounded _ _) fun n => ?_
    split
    · exact Final.pure _
    · exact (final_exactly _).bind (bounded_exactly _) fun _ =>
        final_terminator.bind bounded_terminator fun _ => Final.pure _
  · refine (length?_final _ _).bind (length?_bounded _ _) fun n => ?_
    split
    · exact Final.pure _
    · exact Final.map _ (hitem.times hb _)

theorem value_bounded (room : Nat) : Bounded (value room) := by
  induction room with
  | zero => exact bounded_peek.bind fun _ => Bounded.fail _
  | succ room ih => exact bounded_octet.bind fun mark => bounded_line.bind fun field => body_bounded ih mark field

theorem value_final (room : Nat) : Final (value room) := by
  induction room with
  | zero => exact final_peek.bind bounded_peek fun _ => Final.fail _
  | succ room ih =>
    exact final_octet.bind bounded_octet fun mark =>
      final_line.bind bounded_line fun field => body_final (value_bounded room) ih mark field

theorem read_bounded : Bounded read := value_bounded _

theorem read_final : Final read := value_final _

end

end Reply
end Wire
end Keyspace
