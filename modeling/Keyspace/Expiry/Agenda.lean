/-
# The agenda of deadlines

An `Agenda` lists deadlines in order of time, so that the due ones stand in front. It never looks for
the note of a key inside the list. Every change of a key's deadline gets a new generation, counted
over all keys; a note is current while its generation is the one recorded for its key, and stale
afterwards. Stale notes are dropped when they come to the front, and all at once when they are more
than the current ones and `slack` together.

The agenda only proposes keys. Whether one is due is for the shard's deadlines to say.

Key definitions:
* `set`, `clear`: what changes a key's deadline;
* `sweepDue`: takes off the notes that are due and reports the current ones, in order of deadline and
  then of generation;
* `prune`, `nextDue`: drop stale notes from the front, and read the earliest deadline.
-/
import Keyspace.Bytes
import Keyspace.Clock

namespace Keyspace

/-- A note that a key is due at an instant. -/
structure Note where
  due : Instant
  generation : Nat
  key : Bytes
  deriving DecidableEq, Repr

/-- Earlier deadlines come first, and of equal ones the older note. -/
def Note.before (a b : Note) : Bool :=
  a.due < b.due || (a.due == b.due && a.generation < b.generation)

/-- Puts a note into an ordered list, before all that it comes before. -/
def Note.insertInto (a : Note) : List Note → List Note
  | [] => [a]
  | b :: bs => if a.before b then a :: b :: bs else b :: a.insertInto bs

/-- What a sweep reports: keys in order, and how many. -/
structure Swept where
  keys : List Bytes
  count : Nat
  deriving DecidableEq, Repr

/-- Deadlines in order of time. -/
structure Agenda where
  /-- The notes, current and stale, in order. -/
  notes : List Note
  /-- The generation of the current note of each key that has one. -/
  generations : Dict Nat
  /-- The last generation given out. -/
  lastGeneration : Nat

namespace Agenda

/-- How many stale notes are tolerated beyond the number of current ones. -/
def slack : Nat := 64

/-- The agenda without notes. -/
def empty : Agenda := ⟨[], ∅, 0⟩

instance : Inhabited Agenda := ⟨empty⟩

/-- Whether a note is the current one of its key. -/
def isCurrent (a : Agenda) (n : Note) : Bool := a.generations[n.key]? == some n.generation

/-- The number of notes, stale ones included. -/
def length (a : Agenda) : Nat := a.notes.length

/-- The number of keys with a current note. -/
def tracked (a : Agenda) : Nat := a.generations.size

/-- Keeps the current notes only, once the stale ones are too many. -/
def compact (a : Agenda) : Agenda :=
  if a.length ≤ 2 * a.tracked + slack then a
  else { a with notes := a.notes.filter a.isCurrent }

/-- Notes that a key is due at an instant. An earlier note of the key becomes stale. -/
def set (a : Agenda) (key : Bytes) (due : Instant) : Agenda :=
  let generation := a.lastGeneration + 1
  compact
    { notes := (Note.mk due generation key).insertInto a.notes
      generations := a.generations.insert key generation
      lastGeneration := generation }

/-- Forgets when a key is due. Its note becomes stale. -/
def clear (a : Agenda) (key : Bytes) : Agenda :=
  compact
    { a with
      generations := a.generations.erase key
      lastGeneration := a.lastGeneration + 1 }

/-- Takes the due notes off the front of a list, one after another. A note that is current, by the
generations left at that moment, is reported and its key forgotten; a stale one is dropped. -/
def popDue (now : Instant) : List Note → Dict Nat → Swept × List Note × Dict Nat
  | [], generations => (⟨[], 0⟩, [], generations)
  | n :: notes, generations =>
    if Deadline.reached n.due now then
      if generations[n.key]? == some n.generation then
        let (swept, rest) := popDue now notes (generations.erase n.key)
        (⟨n.key :: swept.keys, swept.count + 1⟩, rest)
      else popDue now notes generations
    else (⟨[], 0⟩, n :: notes, generations)

/-- Takes off every note that is due. Reports the keys of the current ones, which are forgotten, in
order of deadline and then of generation, and counts them. -/
def sweepDue (a : Agenda) (now : Instant) : Swept × Agenda :=
  let (swept, notes, generations) := popDue now a.notes a.generations
  (swept, { a with notes, generations })

/-- What a sweep reports, for those who need no count. -/
def sweep (a : Agenda) (now : Instant) : List Bytes × Agenda :=
  let (swept, a) := a.sweepDue now
  (swept.keys, a)

/-- Drops stale notes from the front. -/
def prune (a : Agenda) : Agenda :=
  { a with notes := a.notes.dropWhile fun n => !a.isCurrent n }

/-- The earliest deadline of a current note. Drops the stale notes before it. -/
def nextDue (a : Agenda) : Option Instant × Agenda :=
  let a := a.prune
  (a.notes.head?.map Note.due, a)

end Agenda
end Keyspace
