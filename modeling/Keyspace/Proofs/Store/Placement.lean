/-
# Every key in its shard

A store is `Placed` if its shards keep their maps together and every key is in the shard that its hash
selects. Then a store is one map from keys to bindings (`Store.binding?`), however many shards it has: an
operation that names a key does to that map what `Operation.onBinding` says (`Placed.run`), a sweep of all
shards drops what is not live (`Placed.sweepAll`), and looking for the earliest deadline changes nothing
(`Placed.nextDue`).

Key definitions: `Store.binding?`, `Store.Placed`, `Store.Changes`.
Key theorems: `Placed.run`, `Placed.sweepAll`, `Placed.nextDue`.
-/
import Keyspace.Store
import Keyspace.Proofs.Shard.Meaning

namespace Keyspace
namespace Store

open Shard (Operation)

/-- What the store holds under a key, expired or not. -/
def binding? (s : Store) (key : Bytes) : Option Binding := (s.shardOf key).binding? key

/-- What the shard at a place holds under a key, expired or not: a string, a hash and a deadline. -/
def held (s : Store) (i : Nat) (key : Bytes) :
    Option (Option Bytes × Option (Dict Bytes) × Option Instant) :=
  (s.shardAt? i).map fun shard => (shard.strings[key]?, shard.hashes[key]?, shard.deadlines[key]?)

/-- The shards keep their maps together, and a key is in the shard that its hash selects. -/
structure Placed (s : Store) : Prop where
  sound : ∀ (i : Nat) (shard : Shard), s.shardAt? i = some shard → shard.Sound s.mode
  home : ∀ (i : Nat) (shard : Shard) (key : Bytes), s.shardAt? i = some shard →
    shard.contains key = true → s.index key = i

/-- Between two stores the binding of one key becomes `b`, and no other changes. -/
structure Changes (s t : Store) (key : Bytes) (b : Option Binding) : Prop where
  self : t.binding? key = b
  others : ∀ k, k ≠ key → t.binding? k = s.binding? k

variable {s : Store} {key : Bytes} {b : Option Binding}

theorem Changes.trans {s t u : Store} {b c : Option Binding} (h : s.Changes t key b) (h' : t.Changes u key c) :
    s.Changes u key c where
  self := h'.self
  others := fun k hk => (h'.others k hk).trans (h.others k hk)

/-- A key belongs to the shard in its place. -/
theorem shardAt?_index (s : Store) (key : Bytes) : s.shardAt? (s.index key) = some (s.shardOf key) :=
  Vector.getElem?_eq_getElem _

theorem Placed.sound_shardOf (h : s.Placed) (key : Bytes) : (s.shardOf key).Sound s.mode :=
  h.sound _ _ (s.shardAt?_index key)

theorem shard_of_emptyBy {hash : Bytes → UInt64} {count i : Nat} {mode : Mode} {shard : Shard}
    (hi : (emptyBy hash count mode).shardAt? i = some shard) : shard = Shard.empty mode := by
  have hmem : shard ∈ Vector.replicate (count - 1 + 1) (Shard.empty mode) := Vector.mem_of_getElem? hi
  exact Vector.eq_of_mem_replicate hmem

theorem placed_emptyBy (hash : Bytes → UInt64) (count : Nat) (mode : Mode) :
    (emptyBy hash count mode).Placed := by
  refine ⟨fun i shard hi => ?_, fun i shard key hi hkey => ?_⟩
  · rw [shard_of_emptyBy hi]
    exact Shard.sound_empty mode
  · rw [shard_of_emptyBy hi] at hkey
    simp [Shard.contains, Shard.empty] at hkey

theorem binding?_emptyBy (hash : Bytes → UInt64) (count : Nat) (mode : Mode) (key : Bytes) :
    (emptyBy hash count mode).binding? key = none := by
  rw [binding?, shard_of_emptyBy (shardAt?_index (emptyBy hash count mode) key)]
  rfl

/-! ### One shard at a time -/

/-- The store with another shard in the place where a key belongs. -/
def putShard (s : Store) (key : Bytes) (shard : Shard) : Store := (s.onShard key fun _ => ((), shard)).2

theorem onShard_eq {α : Type} (s : Store) (key : Bytes) (f : Shard → α × Shard) :
    s.onShard key f = ((f (s.shardOf key)).1, s.putShard key (f (s.shardOf key)).2) := rfl

theorem shardAt?_putShard (s : Store) (key : Bytes) (shard : Shard) (i : Nat) :
    (s.putShard key shard).shardAt? i = if s.index key = i then some shard else s.shardAt? i :=
  Vector.getElem?_set (s.index key).isLt

theorem shardOf_putShard (s : Store) (key : Bytes) (shard : Shard) (k : Bytes) :
    (s.putShard key shard).shardOf k =
      if (s.index key : Nat) = s.index k then shard else s.shardOf k := by
  have hplace := shardAt?_putShard s key shard (s.index k)
  have hput : (s.putShard key shard).shardAt? (s.index k) = some ((s.putShard key shard).shardOf k) :=
    shardAt?_index _ k
  rw [hput, shardAt?_index] at hplace
  split
  · next hi => rwa [if_pos hi, Option.some_inj] at hplace
  · next hi => rwa [if_neg hi, Option.some_inj] at hplace

/-- Putting back the shard that was there changes nothing. -/
theorem putShard_shardOf (s : Store) (key : Bytes) : s.putShard key (s.shardOf key) = s := by
  have hsame : s.shards.set (s.index key) (s.shardOf key) = s.shards := Vector.set_getElem_self _
  exact congrArg (fun shards => { s with shards }) hsame

/-- A change of one key in its shard is a change of that key in the store. -/
theorem Placed.putShard (h : s.Placed) {t : Shard} (ht : t.Sound s.mode)
    (hchanges : (s.shardOf key).Changes t key b) :
    (s.putShard key t).Placed ∧ s.Changes (s.putShard key t) key b := by
  refine ⟨⟨fun i shard hi => ?_, fun i shard k hi hk => ?_⟩, ?_, fun k hk => ?_⟩
  · rw [shardAt?_putShard] at hi
    split at hi
    · rw [← Option.some_inj.mp hi]
      exact ht
    · exact h.sound i shard hi
  · show s.index k = i
    rw [shardAt?_putShard] at hi
    split at hi
    · next hplace =>
      by_cases hkey : k = key
      · rw [hkey, hplace]
      · rw [← Option.some_inj.mp hi, Shard.contains_eq_isSome, hchanges.others k hkey,
          ← Shard.contains_eq_isSome] at hk
        exact (h.home _ _ k (s.shardAt?_index key) hk).trans hplace
    · exact h.home i shard k hi hk
  · rw [binding?, shardOf_putShard, if_pos rfl]
    exact hchanges.self
  · rw [binding?, shardOf_putShard]
    split
    · next hi =>
      have hsame : s.shardOf key = s.shardOf k := by
        rw [← Option.some_inj, ← shardAt?_index, ← shardAt?_index, hi]
      rw [hchanges.others k hk, binding?, hsame]
    · rfl

theorem run_maintenance (s : Store) {op : Operation} (h : op.key? = none) : s.run op = (.done, s) := by
  rw [Store.run, h]

/-- **An operation does to its key what it means for the binding it finds there**, and nothing to any
other key, in whichever shard. -/
theorem Placed.run (h : s.Placed) (op : Operation) (hop : op.key? = some key) :
    (s.run op).1 = (op.onBinding (op.finds (s.binding? key))).1 ∧ (s.run op).2.Placed ∧
    s.Changes (s.run op).2 key (op.onBinding (op.finds (s.binding? key))).2 := by
  have hsound := h.sound_shardOf key
  obtain ⟨hresult, hchanges⟩ := hsound.run_binding op hop
  rw [Store.run, hop]
  exact ⟨hresult, h.putShard (hsound.run op) hchanges⟩

theorem Placed.run_timed (h : s.Placed) {op : Operation} {now : Instant} (hop : op.key? = some key)
    (hnow : op.now? = some now) :
    (s.run op).1 = (op.onBinding (Binding.live now (s.binding? key))).1 := by
  rw [(h.run op hop).1, Operation.finds, hnow]

/-! ### All shards -/

/-- The store after a change of every shard. -/
def mapShards (s : Store) (f : Shard → Shard) : Store := { s with shards := s.shards.map f }

theorem shardAt?_mapShards (s : Store) (f : Shard → Shard) (i : Nat) :
    (s.mapShards f).shardAt? i = (s.shardAt? i).map f := Vector.getElem?_map ..

theorem sweepAll_snd (s : Store) (now : Instant) :
    (s.sweepAll now).2 = s.mapShards fun shard => (shard.sweep now).2 := by
  simp [sweepAll, mapShards, Function.comp_def]

theorem nextDue_snd (s : Store) : s.nextDue.2 = s.mapShards fun shard => shard.nextDue.2 := by
  simp [nextDue, mapShards, Function.comp_def]

/-- A change of every shard that brings up no new keys keeps the keys in their shards. -/
theorem Placed.mapShards (h : s.Placed) (f : Shard → Shard) (g : Option Binding → Option Binding)
    (hsound : ∀ shard : Shard, shard.Sound s.mode → (f shard).Sound s.mode)
    (hbinding : ∀ shard : Shard, shard.Sound s.mode → ∀ k, (f shard).binding? k = g (shard.binding? k))
    (hg : g none = none) :
    (s.mapShards f).Placed ∧ ∀ k, (s.mapShards f).binding? k = g (s.binding? k) := by
  refine ⟨⟨fun i shard hi => ?_, fun i shard k hi hk => ?_⟩, fun k => ?_⟩
  · rw [shardAt?_mapShards] at hi
    obtain ⟨before, hbefore, rfl⟩ := Option.map_eq_some_iff.mp hi
    exact hsound before (h.sound i before hbefore)
  · rw [shardAt?_mapShards] at hi
    obtain ⟨before, hbefore, rfl⟩ := Option.map_eq_some_iff.mp hi
    rw [Shard.contains_eq_isSome, hbinding before (h.sound i before hbefore)] at hk
    refine h.home i before k hbefore ?_
    rw [Shard.contains_eq_isSome]
    cases hb : before.binding? k with
    | none => rw [hb, hg] at hk; cases hk
    | some b => rfl
  · have hshard : (s.mapShards f).shardOf k = f (s.shardOf k) := by
      have hput : (s.mapShards f).shardAt? (s.index k) = some ((s.mapShards f).shardOf k) :=
        shardAt?_index _ k
      rw [shardAt?_mapShards, shardAt?_index] at hput
      exact (Option.some_inj.mp hput).symm
    rw [binding?, hshard, hbinding _ (h.sound_shardOf k)]
    rfl

/-- A sweep of all shards leaves the bindings that are live, and no others. -/
theorem Placed.sweepAll (h : s.Placed) (now : Instant) :
    (s.sweepAll now).2.Placed ∧ ∀ k, (s.sweepAll now).2.binding? k = Binding.live now (s.binding? k) := by
  rw [sweepAll_snd]
  exact h.mapShards _ (Binding.live now) (fun _ hshard => hshard.sweep now)
    (fun _ hshard => hshard.binding?_sweep now) rfl

/-- Looking for the earliest deadline leaves every binding. -/
theorem Placed.nextDue (h : s.Placed) : s.nextDue.2.Placed ∧ ∀ k, s.nextDue.2.binding? k = s.binding? k := by
  rw [nextDue_snd]
  exact h.mapShards _ id (fun _ hshard => hshard.nextDue.2.1)
    (fun _ hshard => hshard.binding?_nextDue) rfl

end Store
end Keyspace
