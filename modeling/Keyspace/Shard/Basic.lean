/-
# A shard

A shard holds part of the keyspace: strings, hashes (finite maps from fields to values) and
deadlines, all by key. A key holds a string or a hash, never both, and a deadline exists only while
its key does.

Keys expire lazily. An expired key stays until an operation that names it, or a sweep, evicts it;
every operation that reads a key evicts it first if it has expired. So a shard may hold more than
what its operations show.

Each operation gives its result together with the shard after it. Operations that find the other
kind of value under the key refuse (`WrongKind`) and change nothing but the eviction before.
-/
import Keyspace.Expiry.Agenda
import Keyspace.Expiry.Deadlines
import Keyspace.Expiry.Mode

namespace Keyspace

/-- The kinds of value that a key may hold. -/
inductive Kind where
  | string
  | hash
  deriving DecidableEq, Repr

/-- The name of the kind of value under a key, if there is one. -/
def Kind.name : Option Kind → String
  | none => "none"
  | some .string => "string"
  | some .hash => "hash"

/-- The key holds a value of the other kind. -/
inductive WrongKind where
  | wrongKind
  deriving DecidableEq, Repr

/-- The wording for a value of the other kind. -/
def WrongKind.message : WrongKind → String
  | .wrongKind => "key holds the wrong kind of value"

/-- Part of the keyspace. -/
structure Shard where
  strings : Dict Bytes
  hashes : Dict (Dict Bytes)
  deadlines : Deadlines
  /-- The deadlines in order of time, if they are kept so. -/
  agenda : Option Agenda

namespace Shard

/-- The shard without keys. -/
def empty (mode : Mode) : Shard where
  strings := ∅
  hashes := ∅
  deadlines := ∅
  agenda := match mode with
    | .linear => none
    | .heap => some Agenda.empty

instance : Inhabited Shard := ⟨empty .linear⟩

/-! ### What the operations are made of -/

/-- Whether a value is under the key, expired or not. -/
def contains (s : Shard) (key : Bytes) : Bool := s.strings.contains key || s.hashes.contains key

/-- The kind of value under the key, expired or not. -/
def kind? (s : Shard) (key : Bytes) : Option Kind :=
  if s.strings.contains key then some .string
  else if s.hashes.contains key then some .hash
  else none

/-- Refuses if the key holds another kind of value. -/
def expect (s : Shard) (key : Bytes) (kind : Kind) : Except WrongKind Unit :=
  match s.kind? key with
  | none => .ok ()
  | some found => if found = kind then .ok () else .error .wrongKind

/-- Gives the key a deadline, in place of any other. -/
def setDeadline (s : Shard) (key : Bytes) (due : Instant) : Shard :=
  { s with
    agenda := s.agenda.map fun a => a.set key due
    deadlines := s.deadlines.insert key due }

/-- Takes the deadline of the key away. Answers whether there was one. -/
def clearDeadline (s : Shard) (key : Bytes) : Bool × Shard :=
  let (had, deadlines) := s.deadlines.clear key
  (had,
    { s with
      deadlines
      agenda := if had then s.agenda.map fun a => a.clear key else s.agenda })

/-- Removes every trace of the key. Answers whether there was a value. -/
def remove (s : Shard) (key : Bytes) : Bool × Shard :=
  (s.contains key,
    ({ s with strings := s.strings.erase key, hashes := s.hashes.erase key }.clearDeadline key).2)

/-- Removes the key if its deadline has been reached. Answers whether it was removed. -/
def evict (s : Shard) (key : Bytes) (now : Instant) : Bool × Shard :=
  if s.deadlines.isExpired key now then (true, (s.remove key).2) else (false, s)

/-- The shard without the key if it has expired. -/
def live (s : Shard) (key : Bytes) (now : Instant) : Shard := (s.evict key now).2

/-! ### Strings -/

/-- The string under the key. -/
def get (s : Shard) (key : Bytes) (now : Instant) : Except WrongKind (Option Bytes) × Shard :=
  let s := s.live key now
  ((s.expect key .string).map fun _ => s.strings[key]?, s)

/-- Stores a string, in place of any value and any deadline. -/
def set (s : Shard) (key value : Bytes) : Shard :=
  let s := ({ s with hashes := s.hashes.erase key }.clearDeadline key).2
  { s with strings := s.strings.insert key value }

/-- Stores a string and its deadline. -/
def setWithDeadline (s : Shard) (key value : Bytes) (due : Instant) : Shard :=
  (s.set key value).setDeadline key due

/-- Removes the key, whatever it holds. Answers whether it was there and had not expired. -/
def delete (s : Shard) (key : Bytes) (now : Instant) : Bool × Shard :=
  match s.evict key now with
  | (true, s) => (false, s)
  | (false, s) => s.remove key

/-! ### Times to live -/

/-- Gives an existing key a deadline. Answers whether the key was there. -/
def setExpire (s : Shard) (key : Bytes) (due now : Instant) : Bool × Shard :=
  let s := s.live key now
  if s.contains key then (true, s.setDeadline key due) else (false, s)

/-- Takes the deadline of a key away, if it has not been reached. Answers whether that was done. -/
def clearExpire (s : Shard) (key : Bytes) (now : Instant) : Bool × Shard :=
  match s.evict key now with
  | (true, s) => (false, s)
  | (false, s) => s.clearDeadline key

/-- The milliseconds that the key has left, or why there is no such time. -/
def ttlMillis (s : Shard) (key : Bytes) (now : Instant) : Int64 × Shard :=
  let s := s.live key now
  (if s.contains key then
    match s.deadlines[key]? with
    | some due => Deadline.remainingMillis due now
    | none => Ttl.noDeadline
  else Ttl.noKey, s)

/-- The kind of value under the key. -/
def kindOf (s : Shard) (key : Bytes) (now : Instant) : Option Kind × Shard :=
  let s := s.live key now
  (s.kind? key, s)

/-! ### Hashes -/

/-- Sets fields one after another. Counts those that were new when they were set. -/
def setFields (hash : Dict Bytes) : List (Bytes × Bytes) → Nat × Dict Bytes
  | [] => (0, hash)
  | (field, value) :: pairs =>
    let (n, result) := setFields (hash.insert field value) pairs
    (if hash.contains field then n else n + 1, result)

/-- Removes fields one after another. Counts those that were there when they were removed. -/
def removeFields (hash : Dict Bytes) : List Bytes → Nat × Dict Bytes
  | [] => (0, hash)
  | field :: fields =>
    let (n, result) := removeFields (hash.erase field) fields
    (if hash.contains field then n + 1 else n, result)

/-- The hash under the key as the shard holds it; an absent key has no fields. -/
def fieldsOf (s : Shard) (key : Bytes) : Dict Bytes := s.hashes[key]?.getD ∅

/-- Sets fields of the hash under the key, which comes into being if need be. Counts the new
fields. -/
def hashSet (s : Shard) (key : Bytes) (pairs : List (Bytes × Bytes)) (now : Instant) :
    Except WrongKind Nat × Shard :=
  let s := s.live key now
  match s.expect key .hash with
  | .error e => (.error e, s)
  | .ok () =>
    let (n, hash) := setFields (s.fieldsOf key) pairs
    (.ok n, { s with hashes := s.hashes.insert key hash })

/-- Reads something off the hash under the key. -/
def readHash {α : Type} (s : Shard) (key : Bytes) (now : Instant) (f : Dict Bytes → α) :
    Except WrongKind α × Shard :=
  let s := s.live key now
  ((s.expect key .hash).map fun _ => f (s.fieldsOf key), s)

/-- The value of a field. -/
def hashGet (s : Shard) (key field : Bytes) (now : Instant) :
    Except WrongKind (Option Bytes) × Shard :=
  s.readHash key now fun hash => hash[field]?

/-- The values of several fields. -/
def hashGetMany (s : Shard) (key : Bytes) (fields : List Bytes) (now : Instant) :
    Except WrongKind (List (Option Bytes)) × Shard :=
  s.readHash key now fun hash => fields.map fun field => hash[field]?

/-- Whether the field is set. -/
def hashHas (s : Shard) (key field : Bytes) (now : Instant) : Except WrongKind Bool × Shard :=
  s.readHash key now fun hash => hash.contains field

/-- The number of fields. -/
def hashSize (s : Shard) (key : Bytes) (now : Instant) : Except WrongKind Nat × Shard :=
  s.readHash key now fun hash => hash.size

/-- All fields with their values, in bytewise order of the fields. -/
def hashPairs (s : Shard) (key : Bytes) (now : Instant) :
    Except WrongKind (List (Bytes × Bytes)) × Shard :=
  s.readHash key now fun hash => hash.toList

/-- Removes fields of the hash under the key. The key goes, with its deadline, when no field is
left. Counts the removed fields. -/
def hashDelete (s : Shard) (key : Bytes) (fields : List Bytes) (now : Instant) :
    Except WrongKind Nat × Shard :=
  let s := s.live key now
  match s.expect key .hash with
  | .error e => (.error e, s)
  | .ok () =>
    match s.hashes[key]? with
    | none => (.ok 0, s)
    | some hash =>
      let (n, hash) := removeFields hash fields
      if hash.isEmpty then
        (.ok n, ({ s with hashes := s.hashes.erase key }.clearDeadline key).2)
      else (.ok n, { s with hashes := s.hashes.insert key hash })

/-! ### Maintenance -/

/-- The keys proposed for eviction: from the agenda, or by looking through all deadlines. -/
def proposals (s : Shard) (now : Instant) : List Bytes × Shard :=
  match s.agenda with
  | some a =>
    let (keys, a) := a.sweep now
    (keys, { s with agenda := some a })
  | none => (s.deadlines.due now, s)

/-- Evicts those of the keys that have expired. Counts them. -/
def evictAll (s : Shard) (now : Instant) : List Bytes → Nat × Shard
  | [] => (0, s)
  | key :: keys =>
    let (evicted, s) := s.evict key now
    let (n, s) := s.evictAll now keys
    (if evicted then n + 1 else n, s)

/-- Evicts every expired key. Counts them. -/
def sweep (s : Shard) (now : Instant) : Nat × Shard :=
  let (keys, s) := s.proposals now
  s.evictAll now keys

/-- The earliest deadline. -/
def nextDue (s : Shard) : Option Instant × Shard :=
  match s.agenda with
  | some a =>
    let (due, a) := a.nextDue
    (due, { s with agenda := some a })
  | none => (s.deadlines.nextDue?, s)

/-- The number of keys held, expired ones included. -/
def size (s : Shard) : Nat := s.strings.size + s.hashes.size

/-- Whether no key is held. -/
def isEmpty (s : Shard) : Bool := s.size == 0

/-- The number of keys with a deadline. -/
def expiring (s : Shard) : Nat := s.deadlines.size

end Shard
end Keyspace
