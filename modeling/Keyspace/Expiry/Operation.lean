/-
# Histories of an agenda

The operations of an agenda as data, so that a history is a list: `Operation.run` performs one and
gives its result, `after` a whole history.
-/
import Keyspace.Expiry.Agenda

namespace Keyspace
namespace Agenda

/-- An operation on an agenda with its arguments. -/
inductive Operation where
  | set (key : Bytes) (due : Instant)
  | clear (key : Bytes)
  | sweepDue (now : Instant)
  | nextDue
  | prune
  deriving DecidableEq, Repr

/-- What an operation answers. -/
inductive Result where
  | done
  | swept (s : Swept)
  | due (t : Option Instant)
  deriving DecidableEq, Repr

namespace Operation

/-- Whether the operation gives out a generation. -/
def takesGeneration : Operation → Bool
  | set _ _ | clear _ => true
  | sweepDue _ | nextDue | prune => false

/-- Performs the operation. -/
def run (a : Agenda) : Operation → Result × Agenda
  | set key due => (.done, a.set key due)
  | clear key => (.done, a.clear key)
  | sweepDue now => (a.sweepDue now).map .swept id
  | nextDue => a.nextDue.map .due id
  | prune => (.done, a.prune)

end Operation

/-- The agenda after a history, oldest operation first. -/
def after (a : Agenda) (ops : List Operation) : Agenda := ops.foldl (fun a op => (op.run a).2) a

end Agenda
end Keyspace
