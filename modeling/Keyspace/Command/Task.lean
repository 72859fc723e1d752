/-
# Histories of a store

What is asked of a store as data, so that a history is a list: requests, and the maintenance that goes
through all shards. `Task.run` does one and gives its result, `Store.runTasks` a whole history.
-/
import Keyspace.Command.Execute

namespace Keyspace

/-- Something asked of a store, at a reading of the clock. -/
inductive Task where
  | request (now : Instant) (args : List Bytes)
  | sweepAll (now : Instant)
  | nextDue
  deriving DecidableEq, Repr

namespace Task

/-- What a task answers. -/
inductive Result where
  | reply (v : Value)
  | swept (n : Nat)
  | due (t : Option Instant)

/-- The reading of the clock for the task. Looking for the earliest deadline needs none. -/
def now? : Task → Option Instant
  | request now _ | sweepAll now => some now
  | nextDue => none

/-- Does the task. -/
def run (s : Store) : Task → Result × Store
  | request now args => (execute now s args).map .reply id
  | sweepAll now => (s.sweepAll now).map .swept id
  | nextDue => s.nextDue.map .due id

end Task

/-- Does one task after another, the first one first. Gives the results in the same order. -/
def Store.runTasks (s : Store) : List Task → List Task.Result × Store
  | [] => ([], s)
  | task :: tasks =>
    let (r, s) := task.run s
    let (rs, s) := s.runTasks tasks
    (r :: rs, s)

end Keyspace
