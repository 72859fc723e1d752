/-
# Histories of a shard

The operations of a shard as data, so that a history is a list: `Operation.run` performs one and
gives its result, `runAll` a whole history.
-/
import Keyspace.Shard.Basic

namespace Keyspace
namespace Shard

/-- An operation on a shard with its arguments. -/
inductive Operation where
  | get (key : Bytes) (now : Instant)
  | set (key value : Bytes)
  | setWithDeadline (key value : Bytes) (due : Instant)
  | delete (key : Bytes) (now : Instant)
  | setExpire (key : Bytes) (due now : Instant)
  | clearExpire (key : Bytes) (now : Instant)
  | ttlMillis (key : Bytes) (now : Instant)
  | kindOf (key : Bytes) (now : Instant)
  | hashSet (key : Bytes) (pairs : List (Bytes × Bytes)) (now : Instant)
  | hashGet (key field : Bytes) (now : Instant)
  | hashGetMany (key : Bytes) (fields : List Bytes) (now : Instant)
  | hashDelete (key : Bytes) (fields : List Bytes) (now : Instant)
  | hashHas (key field : Bytes) (now : Instant)
  | hashSize (key : Bytes) (now : Instant)
  | hashPairs (key : Bytes) (now : Instant)
  | sweep (now : Instant)
  | nextDue
  deriving DecidableEq, Repr

/-- What an operation answers. -/
inductive Result where
  | done
  | refused (e : WrongKind)
  | value (v : Option Bytes)
  | values (vs : List (Option Bytes))
  | pairs (ps : List (Bytes × Bytes))
  | flag (b : Bool)
  | count (n : Nat)
  | ttl (ms : Int64)
  | kind (k : Option Kind)
  | due (t : Option Instant)
  deriving DecidableEq

/-- The result of an operation that may be refused. -/
def Result.ofExcept {α : Type} (f : α → Result) : Except WrongKind α → Result
  | .ok a => f a
  | .error e => .refused e

namespace Operation

/-- The key that the operation names. Maintenance names none. -/
def key? : Operation → Option Bytes
  | get key _ | set key _ | setWithDeadline key _ _ | delete key _ | setExpire key _ _
  | clearExpire key _ | ttlMillis key _ | kindOf key _ | hashSet key _ _ | hashGet key _ _
  | hashGetMany key _ _ | hashDelete key _ _ | hashHas key _ _ | hashSize key _
  | hashPairs key _ => some key
  | sweep _ | nextDue => none

/-- The instant at which the operation looks at deadlines. Storing a string does not. -/
def now? : Operation → Option Instant
  | get _ now | delete _ now | setExpire _ _ now | clearExpire _ now | ttlMillis _ now | kindOf _ now
  | hashSet _ _ now | hashGet _ _ now | hashGetMany _ _ now | hashDelete _ _ now | hashHas _ _ now
  | hashSize _ now | hashPairs _ now | sweep now => some now
  | set _ _ | setWithDeadline _ _ _ | nextDue => none

/-- Performs the operation. -/
def run (s : Shard) : Operation → Result × Shard
  | get key now => (s.get key now).map (.ofExcept .value) id
  | set key value => (.done, s.set key value)
  | setWithDeadline key value due => (.done, s.setWithDeadline key value due)
  | delete key now => (s.delete key now).map .flag id
  | setExpire key due now => (s.setExpire key due now).map .flag id
  | clearExpire key now => (s.clearExpire key now).map .flag id
  | ttlMillis key now => (s.ttlMillis key now).map .ttl id
  | kindOf key now => (s.kindOf key now).map .kind id
  | hashSet key pairs now => (s.hashSet key pairs now).map (.ofExcept .count) id
  | hashGet key field now => (s.hashGet key field now).map (.ofExcept .value) id
  | hashGetMany key fields now => (s.hashGetMany key fields now).map (.ofExcept .values) id
  | hashDelete key fields now => (s.hashDelete key fields now).map (.ofExcept .count) id
  | hashHas key field now => (s.hashHas key field now).map (.ofExcept .flag) id
  | hashSize key now => (s.hashSize key now).map (.ofExcept .count) id
  | hashPairs key now => (s.hashPairs key now).map (.ofExcept .pairs) id
  | sweep now => (s.sweep now).map .count id
  | nextDue => s.nextDue.map .due id

end Operation

/-- Performs a history, oldest operation first. Gives the results in the same order. -/
def runAll (s : Shard) : List Operation → List Result × Shard
  | [] => ([], s)
  | op :: ops =>
    let (r, s) := op.run s
    let (rs, s) := s.runAll ops
    (r :: rs, s)

end Shard
end Keyspace
