/-
# Commands

The commands by name, with the numbers of arguments that each accepts. A number of arguments counts
the name too.
-/
import Keyspace.Bytes

namespace Keyspace

/-- The commands. -/
inductive Command where
  | ping
  | echo
  | set
  | get
  | delete
  | exist
  | getMany
  | setMany
  | ttl
  | expire
  | expireMillis
  | persist
  | hashSet
  | hashGet
  | hashDelete
  | hashHas
  | hashSize
  | hashPairs
  | hashGetMany
  | kind
  deriving DecidableEq, Repr

/-- The least and the greatest accepted number of arguments, if there is a greatest. -/
structure Arity where
  least : Nat
  greatest : Option Nat
  deriving DecidableEq, Repr

namespace Arity

/-- Exactly `n` arguments. -/
def exactly (n : Nat) : Arity := ⟨n, some n⟩

/-- `n` arguments or more. -/
def atLeast (n : Nat) : Arity := ⟨n, none⟩

/-- From `lo` to `hi` arguments. -/
def between (lo hi : Nat) : Arity := ⟨lo, some hi⟩

/-- Whether a number of arguments lies between the bounds. -/
def accepts (a : Arity) (argc : Nat) : Bool :=
  a.least ≤ argc && match a.greatest with
    | some hi => argc ≤ hi
    | none => true

end Arity

namespace Command

/-- All commands. -/
def all : List Command :=
  [.ping, .echo, .set, .get, .delete, .exist, .getMany, .setMany, .ttl, .expire, .expireMillis,
    .persist, .hashSet, .hashGet, .hashDelete, .hashHas, .hashSize, .hashPairs, .hashGetMany, .kind]

/-- The name of a command, in lower case. -/
def name : Command → String
  | ping => "ping"
  | echo => "echo"
  | set => "set"
  | get => "get"
  | delete => "del"
  | exist => "exists"
  | getMany => "mget"
  | setMany => "mset"
  | ttl => "ttl"
  | expire => "expire"
  | expireMillis => "pexpire"
  | persist => "persist"
  | hashSet => "hset"
  | hashGet => "hget"
  | hashDelete => "hdel"
  | hashHas => "hexists"
  | hashSize => "hlen"
  | hashPairs => "hgetall"
  | hashGetMany => "hmget"
  | kind => "type"

/-- The command with a given name, in any case of ASCII letters. -/
def lookup (name : Bytes) : Option Command :=
  all.find? fun c => Bytes.sameIgnoringCase (Bytes.ofString c.name) name

theorem lookup_name (c : Command) : lookup (Bytes.ofString c.name) = some c := by
  cases c <;> decide +kernel

/-- How many arguments a command takes. -/
def arity : Command → Arity
  | ping => .between 1 2
  | echo | get | ttl | persist | hashSize | hashPairs | kind => .exactly 2
  | expire | expireMillis | hashGet | hashHas => .exactly 3
  | delete | exist | getMany => .atLeast 2
  | set | setMany | hashDelete | hashGetMany => .atLeast 3
  | hashSet => .atLeast 4

/-- Whether the arguments after the fixed ones come in pairs, as the command wants them. -/
def paired : Command → Nat → Bool
  | setMany, argc => argc % 2 == 1
  | hashSet, argc => argc % 2 == 0
  | _, _ => true

/-- Whether a command takes this number of arguments. -/
def accepts (c : Command) (argc : Nat) : Bool := c.paired argc && c.arity.accepts argc

end Command
end Keyspace
