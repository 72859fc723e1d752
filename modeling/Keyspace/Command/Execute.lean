/-
# Carrying out requests

`execute` answers one request at a given instant: it looks the command up by name, checks the number
of arguments, puts them in their places and runs the call on the store. Every failure becomes an
error reply.

Commands that name several keys take them from left to right. MGET stops at the first key that holds
a hash; keys before it that had expired are gone by then.
-/
import Keyspace.Command.Call
import Keyspace.Command.Error
import Keyspace.Store
import Keyspace.Text.Utf8

namespace Keyspace

/-- The deadline some time from now, in the unit given. -/
def TimeUnit.deadline : TimeUnit → Instant → Int64 → Option Instant
  | .seconds => Deadline.afterSeconds
  | .millis => Deadline.afterMillis

/-- The command that sets a time to live in this unit. -/
def TimeUnit.command : TimeUnit → Command
  | .seconds => .expire
  | .millis => .expireMillis

/-- The option of SET that gives a time to live in this unit. -/
def TimeUnit.ofOption? (option : Bytes) : Option TimeUnit :=
  if Bytes.sameIgnoringCase option (Bytes.ofString "EX") then some .seconds
  else if Bytes.sameIgnoringCase option (Bytes.ofString "PX") then some .millis
  else none

/-! ### Several keys at once -/

namespace Store

/-- Counts the keys of which an operation says yes, taking them from left to right. -/
def countKeys (s : Store) (op : Bytes → Shard → Bool × Shard) : List Bytes → Nat × Store
  | [] => (0, s)
  | key :: keys =>
    let (yes, s) := s.onShard key (op key)
    let (n, s) := s.countKeys op keys
    (if yes then n + 1 else n, s)

/-- The strings under several keys, taken from left to right up to the first that is none. -/
def getMany (s : Store) (now : Instant) :
    List Bytes → Except WrongKind (List (Option Bytes)) × Store
  | [] => (.ok [], s)
  | key :: keys =>
    match s.onShard key fun shard => shard.get key now with
    | (.error e, s) => (.error e, s)
    | (.ok v, s) =>
      let (vs, s) := s.getMany now keys
      (vs.map (v :: ·), s)

/-- Stores strings one after another. -/
def setMany (s : Store) (pairs : List (Bytes × Bytes)) : Store :=
  pairs.foldl (fun s p => (s.onShard p.1 fun shard => ((), shard.set p.1 p.2)).2) s

end Store

/-! ### Calls -/

namespace Call

/-- What a call answers, with the store after it. -/
abbrev Outcome := Except CommandError Value × Store

/-- An answer of a shard as a reply. -/
def reply {α : Type} (f : α → Value) : Except WrongKind α → Except CommandError Value
  | .ok a => .ok (f a)
  | .error .wrongKind => .error .wrongKind

/-- The deadline that SET options ask for, if they ask for one. The amount is read before the name
of the option is. -/
def setDeadline? (now : Instant) : List Bytes → Except CommandError (Option Instant)
  | [] => .ok none
  | [option, amount] =>
    match Decimal.parse? amount with
    | none => .error .notAnInteger
    | some n =>
      match TimeUnit.ofOption? option with
      | none => .error .badOptions
      | some unit =>
        match unit.deadline now n with
        | none => .error (.invalidExpireTime .set)
        | some due => .ok (some due)
  | _ => .error .badOptions

/-- The deadline that EXPIRE and PEXPIRE ask for. -/
def expireDeadline (unit : TimeUnit) (now : Instant) (amount : Bytes) :
    Except CommandError Instant :=
  match Decimal.parse? amount with
  | none => .error .notAnInteger
  | some n =>
    match unit.deadline now n with
    | none => .error (.invalidExpireTime unit.command)
    | some due => .ok due

/-- Answers with what an operation on the key's shard answers. -/
def onKey {α : Type} (s : Store) (key : Bytes) (f : Shard → α × Shard) (answer : α → Value) :
    Outcome :=
  let (a, s) := s.onShard key f
  (.ok (answer a), s)

/-- Answers with what an operation on the key's shard answers, unless it is refused. -/
def onKind {α : Type} (s : Store) (key : Bytes) (f : Shard → Except WrongKind α × Shard)
    (answer : α → Value) : Outcome :=
  let (a, s) := s.onShard key f
  (reply answer a, s)

/-- Carries out a call. -/
def run (now : Instant) (s : Store) : Call → Outcome
  | ping none => (.ok .pong, s)
  | ping (some message) => (.ok (.bulk message), s)
  | echo message => (.ok (.bulk message), s)
  | set key value options =>
    match setDeadline? now options with
    | .error e => (.error e, s)
    | .ok none => onKey s key (fun shard => ((), shard.set key value)) fun _ => .ok
    | .ok (some due) =>
      onKey s key (fun shard => ((), shard.setWithDeadline key value due)) fun _ => .ok
  | get key => onKind s key (fun shard => shard.get key now) .ofOption
  | delete keys =>
    let (n, s) := s.countKeys (fun key shard => shard.delete key now) keys
    (.ok (.count n), s)
  | exist keys =>
    let (n, s) := s.countKeys (fun key shard => (shard.kindOf key now).map Option.isSome id) keys
    (.ok (.count n), s)
  | getMany keys =>
    let (vs, s) := s.getMany now keys
    (reply .ofOptions vs, s)
  | setMany pairs => (.ok .ok, s.setMany pairs)
  | ttl key =>
    onKey s key (fun shard => shard.ttlMillis key now) fun ms => .integer (Ttl.ceilSeconds ms)
  | expire unit key amount =>
    match expireDeadline unit now amount with
    | .error e => (.error e, s)
    | .ok due => onKey s key (fun shard => shard.setExpire key due now) .flag
  | persist key => onKey s key (fun shard => shard.clearExpire key now) .flag
  | hashSet key pairs => onKind s key (fun shard => shard.hashSet key pairs now) .count
  | hashGet key field => onKind s key (fun shard => shard.hashGet key field now) .ofOption
  | hashDelete key fields => onKind s key (fun shard => shard.hashDelete key fields now) .count
  | hashHas key field => onKind s key (fun shard => shard.hashHas key field now) .flag
  | hashSize key => onKind s key (fun shard => shard.hashSize key now) .count
  | hashPairs key =>
    onKind s key (fun shard => shard.hashPairs key now) fun pairs =>
      .ofOptions (pairs.flatMap fun p => [some p.1, some p.2])
  | hashGetMany key fields => onKind s key (fun shard => shard.hashGetMany key fields now) .ofOptions
  | kind key =>
    onKey s key (fun shard => shard.kindOf key now) fun k => .bulk (Bytes.ofString (Kind.name k))

end Call

/-! ### Requests -/

/-- The call that a request makes. -/
def Call.ofRequest : List Bytes → Except CommandError Call
  | [] => .error .emptyCommand
  | name :: args =>
    match Command.lookup name with
    | none => .error (.unknownCommand (Utf8.decodeLossy name))
    | some c =>
      if c.accepts (args.length + 1) then
        match Call.ofArguments? c args with
        | some call => .ok call
        | none => .error .notExecuted
      else .error (.wrongArity c)

/-- The reply as it is sent: an answer, or the text of the failure. -/
def Call.toValue : Except CommandError Value → Value
  | .ok v => v
  | .error e => e.toValue

/-- Answers a request at an instant. -/
def execute (now : Instant) (s : Store) (args : List Bytes) : Value × Store :=
  match Call.ofRequest args with
  | .error e => (e.toValue, s)
  | .ok call => (call.run now s).map Call.toValue id

/-- A request that reaches a call names a command that accepts its arguments, so a call is never
missing. -/
theorem Call.ofRequest_ne_notExecuted (args : List Bytes) :
    Call.ofRequest args ≠ .error .notExecuted := by
  unfold ofRequest
  split
  · simp
  · next name args =>
    split
    · simp
    · next c _ =>
      split
      · next hc =>
        have := ofArguments?_isSome c args
        rw [hc] at this
        split
        · simp
        · next h => simp [h] at this
      · simp

end Keyspace
