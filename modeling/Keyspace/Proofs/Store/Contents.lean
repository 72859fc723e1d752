/-
# What a store holds, shard by shard

`Store.held` looks into the three maps of one shard. Where every key is in its shard, what it finds is
told by the place of the key and the binding of the key alone (`Placed.held_eq`). So stores of the same
layout hold the same strings, hashes and deadlines, shard by shard, as soon as they hold the same bindings
(`Alike.holdsSame`), and nothing that is asked of a store changes its layout.

`Store.after` leads to every state that a store can get into: by tasks, and by operations on the shard of a
key, among them such as no command performs (setting no field at all of a hash). In each of these states every
key is in its shard (`placed_after`).

Key definitions: `Store.SameLayout`, `Store.HoldsSame`, `Store.Step`, `Store.after`.
Key theorems: `Placed.held_eq`, `Alike.holdsSame`, `sameLayout_execute`, `placed_after`.
-/
import Keyspace.Proofs.Store.Sharding

namespace Keyspace

/-- A binding as the three maps of a shard hold it: a string, a hash and a deadline. -/
def Binding.parts (b : Option Binding) : Option Bytes × Option (Dict Bytes) × Option Instant :=
  (b.bind fun b => b.value.string?, b.bind fun b => b.value.hash?, b.bind Binding.deadline)

namespace Store

open Shard (Operation)

/-- The stores have the same number of shards and place keys alike. -/
structure SameLayout (s t : Store) : Prop where
  hash : s.hash = t.hash
  extra : s.extra = t.extra

/-- The shards of the stores hold the same strings, hashes and deadlines. -/
def HoldsSame (s t : Store) : Prop := ∀ (i : Nat) (key : Bytes), s.held i key = t.held i key

variable {s t u : Store} {key : Bytes} {i : Nat}

/-! ### Layout -/

theorem sameLayout_refl (s : Store) : s.SameLayout s := ⟨rfl, rfl⟩

theorem SameLayout.symm (h : s.SameLayout t) : t.SameLayout s := ⟨h.hash.symm, h.extra.symm⟩

theorem SameLayout.trans (h : s.SameLayout t) (h' : t.SameLayout u) : s.SameLayout u :=
  ⟨h.hash.trans h'.hash, h.extra.trans h'.extra⟩

theorem SameLayout.index (h : s.SameLayout t) (key : Bytes) : (s.index key : Nat) = t.index key := by
  unfold Store.index
  simp [h.hash, h.extra]

theorem sameLayout_run (s : Store) (op : Operation) : s.SameLayout (s.run op).2 := by
  cases hop : op.key? with
  | none =>
    rw [run_maintenance s hop]
    exact sameLayout_refl s
  | some key =>
    unfold Store.run
    rw [hop]
    exact ⟨rfl, rfl⟩

theorem sameLayout_perform : ∀ (ops : List Operation) (s : Store), s.SameLayout (s.perform ops).2
  | [], s => sameLayout_refl s
  | op :: ops, s => by
    have hfirst := sameLayout_run s op
    cases hrefused : (s.run op).1.isRefused with
    | true =>
      rw [perform_cons_of_refused ops hrefused]
      exact hfirst
    | false =>
      rw [perform_cons ops hrefused]
      exact hfirst.trans (sameLayout_perform ops _)

theorem sameLayout_execute (now : Instant) (s : Store) (args : List Bytes) :
    s.SameLayout (execute now s args).2 := by
  rcases execute_cases now args with ⟨e, hfails⟩ | ⟨call, ops, -, -, hruns⟩
  · rw [hfails]
    exact sameLayout_refl s
  · rw [hruns]
    exact sameLayout_perform ops s

/-! ### What a shard holds under a key -/

/-- A shard holds a key as the store does, if it is the one where the key belongs, or not at all. -/
theorem Placed.binding?_of_shardAt? (h : s.Placed) {shard : Shard} (hi : s.shardAt? i = some shard) :
    shard.binding? key = if (s.index key : Nat) = i then s.binding? key else none := by
  by_cases hplace : (s.index key : Nat) = i
  · have hshard := s.shardAt?_index key
    rw [hplace, hi, Option.some_inj] at hshard
    rw [if_pos hplace, binding?, hshard]
  · rw [if_neg hplace]
    cases hb : shard.binding? key with
    | none => rfl
    | some b =>
      have hcontains : shard.contains key = true := by
        rw [Shard.contains_eq_isSome, hb]
        rfl
      exact absurd (h.home i shard key hi hcontains) hplace

theorem Placed.held_eq (h : s.Placed) (i : Nat) (key : Bytes) : s.held i key =
    if i ≤ s.extra then some (Binding.parts (if (s.index key : Nat) = i then s.binding? key else none))
    else none := by
  unfold Store.held
  by_cases hi : i ≤ s.extra
  · have hlt : i < s.extra + 1 := Nat.lt_succ_of_le hi
    have hshard : s.shardAt? i = some s.shards[i] := Vector.getElem?_eq_getElem hlt
    have htidy := (h.sound i _ hshard).toTidy
    rw [if_pos hi, ← h.binding?_of_shardAt? hshard, hshard, Option.map_some, Binding.parts,
      Shard.strings_eq_bind, htidy.hashes_eq_bind, htidy.deadline_eq]
  · have hshard : s.shardAt? i = none := Vector.getElem?_eq_none (by omega)
    rw [if_neg hi, hshard, Option.map_none]

/-- Where a key has the same binding, every shard holds the same under it. -/
theorem SameLayout.held_eq (hl : s.SameLayout t) (hs : s.Placed) (ht : t.Placed)
    (hkey : s.binding? key = t.binding? key) (i : Nat) : s.held i key = t.held i key := by
  rw [hs.held_eq, ht.held_eq, hl.index, hl.extra, hkey]

/-- Stores that hold the same bindings in the same layout hold the same in every shard. -/
theorem Alike.holdsSame (h : Alike s t) (hl : s.SameLayout t) : s.HoldsSame t :=
  fun i key => hl.held_eq h.left h.right (h.same key) i

/-! ### States that a store gets into -/

/-- Something that is done to a store: a task, or an operation on the shard where its key belongs. -/
inductive Step where
  | task (t : Task)
  | operation (op : Operation)

/-- The store after a step. -/
def Step.run (s : Store) : Step → Store
  | task t => (t.run s).2
  | operation op => (s.run op).2

/-- The store after a history, oldest step first. -/
def after (s : Store) (history : List Step) : Store := history.foldl Step.run s

theorem Placed.step (h : s.Placed) (step : Step) : (step.run s).Placed := by
  cases step with
  | task t => exact (h.alike.task t).2.left
  | operation op => exact (h.alike.run op).2.left

theorem Placed.after (h : s.Placed) (history : List Step) : (s.after history).Placed :=
  List.foldlRecOn history Step.run h fun _ ht step _ => ht.step step

/-- In every state that a store gets into, every key is in its shard. -/
theorem placed_after (hash : Bytes → UInt64) (count : Nat) (mode : Mode) (history : List Step) :
    ((emptyBy hash count mode).after history).Placed :=
  (placed_emptyBy hash count mode).after history

end Store
end Keyspace
