/-
# The store

A store spreads the keyspace over a fixed number of shards, at least one. Each key lives in the shard
that its hash selects, so an operation that names a key runs on that shard alone; sweeping, counting
and looking for the earliest deadline go through all shards.

The hash is part of the store. `Store.empty` takes the usual one; nothing but the placement of keys
depends on it.
-/
import Keyspace.Shard.Operation
import Keyspace.SipHash

namespace Keyspace

/-- The keyspace, spread over `extra + 1` shards. -/
structure Store where
  mode : Mode
  hash : Bytes → UInt64
  extra : Nat
  shards : Vector Shard (extra + 1)

namespace Store

/-- The number of shards if none is chosen. -/
def standardShards : Nat := 16

/-- A store of empty shards, at least one, that places keys by a given hash. -/
def emptyBy (hash : Bytes → UInt64) (count : Nat) (mode : Mode) : Store where
  mode
  hash
  extra := count - 1
  shards := Vector.replicate (count - 1 + 1) (Shard.empty mode)

/-- A store of empty shards, at least one. -/
def empty (count : Nat) (mode : Mode) : Store := emptyBy SipHash.ofKey count mode

/-- The store when nothing is chosen. -/
def standard : Store := empty standardShards Mode.standard

instance : Inhabited Store := ⟨standard⟩

/-! ### Placement -/

/-- The number of shards. -/
def shardCount (s : Store) : Nat := s.extra + 1

/-- The place of the shard that holds the key. -/
def index (s : Store) (key : Bytes) : Fin (s.extra + 1) := Fin.ofNat (s.extra + 1) (s.hash key).toNat

/-- The shard that holds the key. -/
def shardOf (s : Store) (key : Bytes) : Shard := s.shards[s.index key]

/-- The shard at a place. -/
def shardAt? (s : Store) (i : Nat) : Option Shard := s.shards[i]?

/-- Runs an operation on the shard that holds the key. -/
def onShard {α : Type} (s : Store) (key : Bytes) (f : Shard → α × Shard) : α × Store :=
  let (a, shard) := f (s.shardOf key)
  (a, { s with shards := s.shards.set (s.index key) shard })

/-! ### All shards -/

/-- Evicts every expired key. Counts them. -/
def sweepAll (s : Store) (now : Instant) : Nat × Store :=
  let swept := s.shards.map fun shard => shard.sweep now
  ((swept.toList.map Prod.fst).foldr (· + ·) 0, { s with shards := swept.map Prod.snd })

/-- The earliest deadline. -/
def nextDue (s : Store) : Option Instant × Store :=
  let asked := s.shards.map Shard.nextDue
  ((asked.toList.filterMap Prod.fst).min?, { s with shards := asked.map Prod.snd })

/-- The number of keys held, expired ones included. -/
def size (s : Store) : Nat := (s.shards.toList.map Shard.size).foldr (· + ·) 0

/-- Whether no key is held. -/
def isEmpty (s : Store) : Bool := s.shards.all Shard.isEmpty

/-- Performs an operation that names a key on the shard that holds it. Maintenance of a single shard
is not for a store to ask and does nothing. -/
def run (s : Store) (op : Shard.Operation) : Shard.Result × Store :=
  match op.key? with
  | some key => s.onShard key fun shard => op.run shard
  | none => (.done, s)

end Store
end Keyspace
