/-
# Deadlines by key

`Deadlines` is the one authority on when keys expire: a finite map from keys to instants. Looking for
due keys goes through all of it.
-/
import Keyspace.Bytes
import Keyspace.Clock

namespace Keyspace

/-- The deadline of each key that has one. -/
abbrev Deadlines := Dict Instant

namespace Deadlines

/-- Removes the deadline of a key. Answers whether there was one. -/
def clear (d : Deadlines) (key : Bytes) : Bool × Deadlines := (d.contains key, d.erase key)

/-- Whether the deadline of a key has been reached. -/
def isExpired (d : Deadlines) (key : Bytes) (now : Instant) : Bool :=
  match d[key]? with
  | some due => Deadline.reached due now
  | none => false

/-- The keys whose deadline has been reached, in bytewise order. -/
def due (d : Deadlines) (now : Instant) : List Bytes :=
  (d.filter fun _ due => Deadline.reached due now).keys

/-- The earliest deadline. -/
def nextDue? (d : Deadlines) : Option Instant := (d.toList.map Prod.snd).min?

end Deadlines
end Keyspace
