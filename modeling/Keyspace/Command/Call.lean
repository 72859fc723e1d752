/-
# Calls

A `Call` is a command with its arguments in their places. `Call.ofArguments?` puts the arguments
there; it finds a place for each of them whenever the command accepts their number
(`ofArguments?_isSome`), so carrying out a call never reaches for an argument that is not there and
never leaves one over.
-/
import Keyspace.Command.Basic

namespace Keyspace

/-- The unit of a time to live. -/
inductive TimeUnit where
  | seconds
  | millis
  deriving DecidableEq, Repr

/-- A command with its arguments. -/
inductive Call where
  | ping (message : Option Bytes)
  | echo (message : Bytes)
  | set (key value : Bytes) (options : List Bytes)
  | get (key : Bytes)
  | delete (keys : List Bytes)
  | exist (keys : List Bytes)
  | getMany (keys : List Bytes)
  | setMany (pairs : List (Bytes × Bytes))
  | ttl (key : Bytes)
  | expire (unit : TimeUnit) (key amount : Bytes)
  | persist (key : Bytes)
  | hashSet (key : Bytes) (pairs : List (Bytes × Bytes))
  | hashGet (key field : Bytes)
  | hashDelete (key : Bytes) (fields : List Bytes)
  | hashHas (key field : Bytes)
  | hashSize (key : Bytes)
  | hashPairs (key : Bytes)
  | hashGetMany (key : Bytes) (fields : List Bytes)
  | kind (key : Bytes)
  deriving DecidableEq, Repr

namespace Call

/-- A list as pairs of neighbours, if none is left over. -/
def pairs? : List Bytes → Option (List (Bytes × Bytes))
  | [] => some []
  | [_] => none
  | a :: b :: rest => (pairs? rest).map ((a, b) :: ·)

/-- A command with the arguments after its name, if they fit. -/
def ofArguments? : Command → List Bytes → Option Call
  | .ping, [] => some (.ping none)
  | .ping, [message] => some (.ping (some message))
  | .echo, [message] => some (.echo message)
  | .set, key :: value :: options => some (.set key value options)
  | .get, [key] => some (.get key)
  | .delete, keys@(_ :: _) => some (.delete keys)
  | .exist, keys@(_ :: _) => some (.exist keys)
  | .getMany, keys@(_ :: _) => some (.getMany keys)
  | .setMany, args@(_ :: _) => (pairs? args).map .setMany
  | .ttl, [key] => some (.ttl key)
  | .expire, [key, amount] => some (.expire .seconds key amount)
  | .expireMillis, [key, amount] => some (.expire .millis key amount)
  | .persist, [key] => some (.persist key)
  | .hashSet, key :: args@(_ :: _) => (pairs? args).map (.hashSet key)
  | .hashGet, [key, field] => some (.hashGet key field)
  | .hashDelete, key :: fields@(_ :: _) => some (.hashDelete key fields)
  | .hashHas, [key, field] => some (.hashHas key field)
  | .hashSize, [key] => some (.hashSize key)
  | .hashPairs, [key] => some (.hashPairs key)
  | .hashGetMany, key :: fields@(_ :: _) => some (.hashGetMany key fields)
  | .kind, [key] => some (.kind key)
  | _, _ => none

/-! ### Every accepted argument has its place -/

theorem pairs?_isSome (args : List Bytes) : (pairs? args).isSome = (args.length % 2 == 0) := by
  fun_induction pairs? args with
  | case1 => rfl
  | case2 => rfl
  | case3 a b rest ih =>
    have : (rest.length + 1 + 1) % 2 = rest.length % 2 := by omega
    simp [ih, this]

/-- The pairs hold what the list holds, in its order. -/
theorem flatMap_pairs? {args : List Bytes} {ps : List (Bytes × Bytes)} (h : pairs? args = some ps) :
    ps.flatMap (fun p => [p.1, p.2]) = args := by
  fun_induction pairs? args generalizing ps with
  | case1 => cases h; rfl
  | case2 => cases h
  | case3 a b rest ih =>
    obtain ⟨qs, hq, rfl⟩ := Option.map_eq_some_iff.1 h
    simp [ih hq]

/-- The arguments fit exactly when the command accepts their number, the name included. -/
theorem ofArguments?_isSome (c : Command) (args : List Bytes) :
    (ofArguments? c args).isSome = c.accepts (args.length + 1) := by
  have even (n : Nat) : ((n + 1 + 1) % 2 == 0) = (n % 2 == 0) := by
    rw [show (n + 1 + 1) % 2 = n % 2 by omega]
  have odd (n : Nat) : ((n + 1) % 2 == 1) = (n % 2 == 0) := by
    rw [Bool.eq_iff_iff, beq_iff_eq, beq_iff_eq]; omega
  rcases args with _ | ⟨a, _ | ⟨b, _ | ⟨d, rest⟩⟩⟩ <;> cases c <;>
    simp [ofArguments?, Command.accepts, Command.paired, Command.arity, Arity.exactly,
      Arity.atLeast, Arity.between, Arity.accepts, pairs?_isSome, pairs?, even, odd]

end Call
end Keyspace
