/-
# Requests

A request is an array of bulks: the name of a command and its arguments. `Request.read` frames one
at the front of a buffer and `Request.encode` writes one. The null bulk stands for an empty
argument.

After a fault the stream can often be picked up again: `Request.discard` says how many octets to
drop, and 0 means that the stream is lost.

Key theorems:
* `read_bounded`, `read_uses`: a request uses at least one octet and no more than there are.
* `read_final`: a verdict on a request is not changed by octets that arrive later.
-/
import Keyspace.Wire.Reader

namespace Keyspace
namespace Wire
namespace Request

/-! ### Reading -/

/-- One argument: a bulk, or the null bulk for an empty argument. -/
def argument : Reader Bytes := do
  let mark ← Reader.peek
  if mark ≠ bulkMark then Reader.fail (.expectedBulk mark) else do
  let _ ← Reader.octet
  let field ← Reader.line
  match Decimal.parse? field with
  | none => Reader.fail .invalidLength
  | some n =>
    if n = -1 then pure []
    else if n < 0 then Reader.fail .invalidLength
    else if maxBulk < n.toInt.toNat then Reader.fail (.tooLarge n.toInt.toNat maxBulk) else do
    let data ← Reader.exactly n.toInt.toNat
    Reader.terminator
    return data

/-- A request: its name and arguments. -/
def read : Reader (List Bytes) := do
  let mark ← Reader.peek
  if mark ≠ arrayMark then Reader.fail (.expectedArray mark) else do
  let _ ← Reader.octet
  let field ← Reader.line
  match Decimal.parse? field with
  | none => Reader.fail .invalidCount
  | some n =>
    if n < 0 then Reader.fail .invalidCount
    else if maxArray < n.toInt.toNat then Reader.fail (.tooLarge n.toInt.toNat maxArray)
    else Reader.times argument n.toInt.toNat

/-- How many octets to drop from the front of a buffer after a fault was noticed at `offset`. Zero
means that the stream cannot be picked up again. -/
def discard (fault : Fault) (offset : Nat) : Nat := if fault.resumable then offset else 0

/-! ### Writing -/

/-- The octets of a request. -/
def encode (args : List Bytes) : Bytes := (Value.array (args.map .bulk)).encode

/-! ### What reading uses -/

theorem argument_bounded : Reader.Bounded argument := by
  refine Reader.bounded_peek.bind fun mark => ?_
  refine (Reader.Bounded.fail _).ite (Reader.bounded_octet.bind fun _ =>
    Reader.bounded_line.bind fun field => ?_)
  split
  · exact Reader.Bounded.fail _
  · exact (Reader.Bounded.pure _).ite ((Reader.Bounded.fail _).ite ((Reader.Bounded.fail _).ite
      ((Reader.bounded_exactly _).bind fun _ =>
        Reader.bounded_terminator.bind fun _ => Reader.Bounded.pure _)))

theorem read_bounded : Reader.Bounded read := by
  refine Reader.bounded_peek.bind fun mark => ?_
  refine (Reader.Bounded.fail _).ite (Reader.bounded_octet.bind fun _ =>
    Reader.bounded_line.bind fun field => ?_)
  split
  · exact Reader.Bounded.fail _
  · exact (Reader.Bounded.fail _).ite ((Reader.Bounded.fail _).ite (argument_bounded.times _))

theorem argument_final : Reader.Final argument := by
  refine Reader.final_peek.bind Reader.bounded_peek fun mark => ?_
  refine (Reader.Final.fail _).ite (Reader.final_octet.bind Reader.bounded_octet fun _ =>
    Reader.final_line.bind Reader.bounded_line fun field => ?_)
  split
  · exact Reader.Final.fail _
  · exact (Reader.Final.pure _).ite ((Reader.Final.fail _).ite ((Reader.Final.fail _).ite
      ((Reader.final_exactly _).bind (Reader.bounded_exactly _) fun _ =>
        Reader.final_terminator.bind Reader.bounded_terminator fun _ => Reader.Final.pure _)))

theorem read_final : Reader.Final read := by
  refine Reader.final_peek.bind Reader.bounded_peek fun mark => ?_
  refine (Reader.Final.fail _).ite (Reader.final_octet.bind Reader.bounded_octet fun _ =>
    Reader.final_line.bind Reader.bounded_line fun field => ?_)
  split
  · exact Reader.Final.fail _
  · exact (Reader.Final.fail _).ite ((Reader.Final.fail _).ite
      (argument_final.times argument_bounded _))

/-- A request uses at least its first octet. -/
theorem read_uses {buf : Bytes} {args : List Bytes} {n : Nat} (h : read buf = .complete args n) :
    0 < n := by
  obtain ⟨mark, m, k, -, hk, rfl⟩ := Reader.bind_complete h
  split at hk
  · cases hk
  · obtain ⟨_, m', k', ho, -, rfl⟩ := Reader.bind_complete hk
    unfold Reader.octet at ho
    split at ho
    · cases ho
    · cases ho; omega

@[simp] theorem read_nil : read [] = .incomplete := rfl

end Request
end Wire
end Keyspace
