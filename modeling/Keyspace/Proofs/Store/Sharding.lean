/-
# How keys are spread does not show

Stores are `Alike` if every key is in its shard in each of them and they hold the same bindings, in
whatever number of shards and by whatever hash. Alike stores answer every request alike and stay alike, as
a request is a sequence of operations on single keys. Counting goes through all shards: there, what the
shards list together is what the bindings say, each key once (`perm_flatMap`), so alike stores count the same.
The earliest deadline is the least one, wherever it is.

Key definitions: `Store.Alike`, `Store.Lists`.
Key theorems: `Alike.request`, `Alike.sweepAll`, `Alike.nextDue`, `sharding_transparent`.
-/
import Keyspace.Command.Task
import Keyspace.Proofs.Command.Footprint
import Keyspace.Proofs.Store.Placement
import Mathlib.Data.List.Nodup

namespace Keyspace
namespace Store

open Shard (Operation)

/-- Two stores that hold the same bindings, each in shards of its own. -/
structure Alike (s t : Store) : Prop where
  left : s.Placed
  right : t.Placed
  same : ∀ k, s.binding? k = t.binding? k

variable {s t : Store}

theorem alike_emptyBy (hash hash' : Bytes → UInt64) (n m : Nat) (mode mode' : Mode) :
    Alike (emptyBy hash n mode) (emptyBy hash' m mode') where
  left := placed_emptyBy hash n mode
  right := placed_emptyBy hash' m mode'
  same := fun k => by rw [binding?_emptyBy, binding?_emptyBy]

theorem Placed.alike (h : s.Placed) : Alike s s := ⟨h, h, fun _ => rfl⟩

theorem Alike.symm (h : Alike s t) : Alike t s := ⟨h.right, h.left, fun k => (h.same k).symm⟩

/-! ### Requests -/

/-- Alike stores agree on the keys of every sort. -/
theorem Alike.agreeOn (h : Alike s t) : AgreeOn (fun _ => True) s t := ⟨h.left, h.right, fun k _ => h.same k⟩

theorem AgreeOn.alike (h : AgreeOn (fun _ => True) s t) : Alike s t := ⟨h.left, h.right, fun k => h.same k trivial⟩

theorem Alike.run (h : Alike s t) (op : Operation) :
    (s.run op).1 = (t.run op).1 ∧ Alike (s.run op).2 (t.run op).2 :=
  (h.agreeOn.run op fun _ _ => trivial).imp_right AgreeOn.alike

/-- Alike stores give the same reply to a request and stay alike. -/
theorem Alike.request (h : Alike s t) (now : Instant) (args : List Bytes) :
    (execute now s args).1 = (execute now t args).1 ∧
    Alike (execute now s args).2 (execute now t args).2 :=
  (h.agreeOn.request now args fun _ _ => trivial).imp_right AgreeOn.alike

/-! ### Counting over all shards -/

/-- A listing of keys in a shard, without repetition: those whose binding is of some sort. -/
structure Lists (keys : Shard → List Bytes) (sort : Option Binding → Prop) : Prop where
  nodup : ∀ shard : Shard, shard.Tidy → (keys shard).Nodup
  mem_iff : ∀ shard : Shard, shard.Tidy → ∀ key, key ∈ keys shard ↔ sort (shard.binding? key)
  absent : ¬ sort none

/-- The keys of a shard. -/
def heldKeys (shard : Shard) : List Bytes := shard.strings.keys ++ shard.hashes.keys

theorem lists_heldKeys : Lists heldKeys fun b => b.isSome = true where
  nodup := fun shard h => by
    refine List.Nodup.append Std.ExtTreeMap.nodup_keys Std.ExtTreeMap.nodup_keys fun key hs hh => ?_
    exact h.oneKind key (Std.ExtTreeMap.mem_keys.mp hs) (Std.ExtTreeMap.mem_keys.mp hh)
  mem_iff := fun shard _ key => by
    rw [heldKeys, List.mem_append, Std.ExtTreeMap.mem_keys, Std.ExtTreeMap.mem_keys,
      ← Shard.contains_iff, Shard.contains_eq_isSome]
  absent := by simp

/-- The keys of a map that is made from deadlines, by what is made of the deadline of each. -/
theorem lists_deadlines (f : Deadlines → Deadlines) (g : Option Instant → Option Instant)
    (hf : ∀ (d : Deadlines) (key : Bytes), (f d)[key]? = g d[key]?) (hg : g none = none) :
    Lists (fun shard => (f shard.deadlines).keys) fun b => (g (b.bind Binding.deadline)).isSome = true where
  nodup := fun _ _ => Std.ExtTreeMap.nodup_keys
  mem_iff := fun shard h key => by
    rw [Std.ExtTreeMap.mem_keys, Std.ExtTreeMap.mem_iff_isSome_getElem?, hf, h.deadline_eq]
  absent := by simp [hg]

variable {keys : Shard → List Bytes} {sort : Option Binding → Prop}

theorem mem_shards_iff {shard : Shard} : shard ∈ s.shards.toList ↔ ∃ i, s.shardAt? i = some shard := by
  rw [List.mem_iff_getElem?]
  exact exists_congr fun i => by rw [shardAt?, ← Vector.getElem?_toList]

theorem Placed.sound_of_mem (h : s.Placed) {shard : Shard} (hshard : shard ∈ s.shards.toList) :
    shard.Sound s.mode := by
  obtain ⟨i, hi⟩ := mem_shards_iff.mp hshard
  exact h.sound i shard hi

/-- A key that a shard holds is held there as in the store. -/
theorem Placed.binding?_of_contains (h : s.Placed) {i : Nat} {shard : Shard} {key : Bytes}
    (hi : s.shardAt? i = some shard) (hkey : shard.contains key = true) :
    s.binding? key = shard.binding? key := by
  have hplace := s.shardAt?_index key
  rw [h.home i shard key hi hkey, hi, Option.some_inj] at hplace
  rw [binding?, ← hplace]

theorem Lists.contains (hl : Lists keys sort) {shard : Shard} (h : shard.Tidy) {key : Bytes}
    (hkey : key ∈ keys shard) : shard.contains key = true := by
  rw [hl.mem_iff shard h] at hkey
  rw [Shard.contains_eq_isSome]
  cases hb : shard.binding? key with
  | none =>
    rw [hb] at hkey
    exact absurd hkey hl.absent
  | some b => rfl

/-- What all shards list, they list by the binding that the store holds. -/
theorem Placed.mem_flatMap (h : s.Placed) (hl : Lists keys sort) (key : Bytes) :
    key ∈ s.shards.toList.flatMap keys ↔ sort (s.binding? key) := by
  rw [List.mem_flatMap]
  constructor
  · rintro ⟨shard, hshard, hkey⟩
    obtain ⟨i, hi⟩ := mem_shards_iff.mp hshard
    have htidy := (h.sound i shard hi).toTidy
    rw [h.binding?_of_contains hi (hl.contains htidy hkey)]
    exact (hl.mem_iff shard htidy key).mp hkey
  · intro hsort
    exact ⟨s.shardOf key, mem_shards_iff.mpr ⟨_, s.shardAt?_index key⟩,
      (hl.mem_iff _ (h.sound_shardOf key).toTidy key).mpr hsort⟩

/-- No key is listed twice, as it is in one shard only. -/
theorem Placed.nodup_flatMap (h : s.Placed) (hl : Lists keys sort) : (s.shards.toList.flatMap keys).Nodup := by
  refine List.nodup_flatMap.mpr ⟨fun shard hshard => hl.nodup shard (h.sound_of_mem hshard).toTidy, ?_⟩
  refine List.pairwise_iff_getElem.mpr fun i j hi hj hij => ?_
  intro key hleft hright
  have hhome : ∀ (i : Nat) (hi : i < s.shards.toList.length), key ∈ keys s.shards.toList[i] →
      (s.index key : Nat) = i := fun i hi hkey => by
    have hplace : s.shardAt? i = some s.shards.toList[i] := by
      rw [shardAt?, ← Vector.getElem?_toList, List.getElem?_eq_getElem hi]
    exact h.home i _ key hplace (hl.contains (h.sound i _ hplace).toTidy hkey)
  have hsame := (hhome i hi hleft).symm.trans (hhome j hj hright)
  omega

/-- Alike stores list the same keys. -/
theorem Alike.perm_flatMap (h : Alike s t) (hl : Lists keys sort) :
    (s.shards.toList.flatMap keys).Perm (t.shards.toList.flatMap keys) := by
  refine (List.perm_ext_iff_of_nodup (h.left.nodup_flatMap hl) (h.right.nodup_flatMap hl)).mpr fun key => ?_
  rw [h.left.mem_flatMap hl, h.right.mem_flatMap hl, h.same]

theorem size_eq_length (s : Store) : s.size = (s.shards.toList.flatMap heldKeys).length := by
  rw [List.length_flatMap]
  refine congrArg List.sum (List.map_congr_left fun shard _ => ?_)
  rw [heldKeys, List.length_append, Std.ExtTreeMap.length_keys, Std.ExtTreeMap.length_keys, Shard.size]

theorem Alike.size (h : Alike s t) : s.size = t.size := by
  rw [size_eq_length, size_eq_length]
  exact (h.perm_flatMap lists_heldKeys).length_eq

/-- A store is empty if it counts no keys. -/
theorem isEmpty_eq (s : Store) : s.isEmpty = (s.size == 0) := by
  have hsum : s.size = (s.shards.toList.map Shard.size).sum := rfl
  rw [Bool.eq_iff_iff, beq_iff_eq, hsum, List.sum_eq_zero_iff_forall_eq_nat, isEmpty, ← Vector.all_toList,
    List.all_eq_true, List.forall_mem_map]
  exact forall₂_congr fun shard _ => beq_iff_eq

theorem Alike.isEmpty (h : Alike s t) : s.isEmpty = t.isEmpty := by
  rw [isEmpty_eq, isEmpty_eq, h.size]

/-! ### Sweeping -/

/-- Sweeping shards counts the deadlines that it takes away. -/
theorem sweep_count_all {mode : Mode} (now : Instant) : ∀ (shards : List Shard),
    (∀ shard ∈ shards, shard.Sound mode) →
    (shards.map fun shard => (shard.sweep now).1).foldr (· + ·) 0 +
        (shards.flatMap fun shard => (shard.deadlines.pending now).keys).length =
      (shards.flatMap fun shard => shard.deadlines.keys).length
  | [], _ => rfl
  | shard :: shards, h => by
    have hfirst := (h shard List.mem_cons_self).sweep_count now
    have hrest := sweep_count_all now shards fun t ht => h t (List.mem_cons_of_mem shard ht)
    simp only [List.map_cons, List.foldr_cons, List.flatMap_cons, List.length_append,
      Std.ExtTreeMap.length_keys]
    omega

theorem Placed.sweepAll_count (h : s.Placed) (now : Instant) :
    (s.sweepAll now).1 + (s.shards.toList.flatMap fun shard => (shard.deadlines.pending now).keys).length =
      (s.shards.toList.flatMap fun shard => shard.deadlines.keys).length := by
  rw [Store.sweepAll, Vector.toList_map, List.map_map]
  exact sweep_count_all now s.shards.toList fun _ => h.sound_of_mem

theorem lists_deadlines_all : Lists (fun shard => shard.deadlines.keys)
    fun b => (b.bind Binding.deadline).isSome = true :=
  lists_deadlines id id (fun _ _ => rfl) rfl

theorem lists_deadlines_pending (now : Instant) :
    Lists (fun shard => (shard.deadlines.pending now).keys) fun b =>
      ((b.bind Binding.deadline).filter fun due => !Deadline.reached due now).isSome = true :=
  lists_deadlines (fun d => d.pending now) (Option.filter fun due => !Deadline.reached due now)
    (fun _ _ => Std.ExtTreeMap.getElem?_filter') rfl

/-- Alike stores sweep the same number of keys: together their shards lose the same deadlines. -/
theorem Alike.sweepAll (h : Alike s t) (now : Instant) :
    (s.sweepAll now).1 = (t.sweepAll now).1 ∧ Alike (s.sweepAll now).2 (t.sweepAll now).2 := by
  have hs := h.left.sweepAll_count now
  have ht := h.right.sweepAll_count now
  rw [(h.perm_flatMap (lists_deadlines_pending now)).length_eq,
    (h.perm_flatMap lists_deadlines_all).length_eq] at hs
  obtain ⟨hsplaced, hsbinding⟩ := h.left.sweepAll now
  obtain ⟨htplaced, htbinding⟩ := h.right.sweepAll now
  refine ⟨Nat.add_right_cancel (hs.trans ht.symm), hsplaced, htplaced, fun k => ?_⟩
  rw [hsbinding, htbinding, h.same]

/-! ### The earliest deadline -/

/-- The earliest deadlines of the shards. -/
def dues (s : Store) : List Instant := s.shards.toList.filterMap fun shard => shard.nextDue.1

theorem nextDue_fst (s : Store) : s.nextDue.1 = s.dues.min? := by
  rw [nextDue, Vector.toList_map, List.filterMap_map]
  rfl

theorem mem_dues_iff {due : Instant} :
    due ∈ s.dues ↔ ∃ shard ∈ s.shards.toList, shard.nextDue.1 = some due := List.mem_filterMap

/-- The earliest deadline of a shard is the deadline of a key. -/
theorem Placed.exists_of_mem_dues (h : s.Placed) {due : Instant} (hdue : due ∈ s.dues) :
    ∃ key, (s.binding? key).bind Binding.deadline = some due := by
  obtain ⟨shard, hshard, hnext⟩ := mem_dues_iff.mp hdue
  obtain ⟨i, hi⟩ := mem_shards_iff.mp hshard
  have hsound := h.sound i shard hi
  have hleast := hsound.nextDue.1
  rw [hnext] at hleast
  obtain ⟨⟨key, hkey⟩, -⟩ := hleast
  have hcontains : shard.contains key = true :=
    Shard.contains_iff.mpr (hsound.held key (Dict.mem_of_getElem? hkey))
  rw [hsound.deadline_eq, ← h.binding?_of_contains hi hcontains] at hkey
  exact ⟨key, hkey⟩

/-- No deadline of a key is earlier than those of the shards. -/
theorem Placed.exists_mem_dues (h : s.Placed) {key : Bytes} {due : Instant}
    (hkey : (s.binding? key).bind Binding.deadline = some due) : ∃ first ∈ s.dues, first ≤ due := by
  have hsound := h.sound_shardOf key
  have hmem : s.shardOf key ∈ s.shards.toList := mem_shards_iff.mpr ⟨_, s.shardAt?_index key⟩
  have hleast := hsound.nextDue.1
  have hdue : (s.shardOf key).deadlines[key]? = some due := hsound.deadline_eq.trans hkey
  cases hnext : (s.shardOf key).nextDue.1 with
  | none =>
    rw [hnext] at hleast
    rw [hleast key] at hdue
    cases hdue
  | some first =>
    rw [hnext] at hleast
    exact ⟨first, mem_dues_iff.mpr ⟨_, hmem, hnext⟩, hleast.2 key due hdue⟩

theorem Alike.exists_mem_dues (h : Alike s t) {due : Instant} (hdue : due ∈ s.dues) :
    ∃ first ∈ t.dues, first ≤ due := by
  obtain ⟨key, hkey⟩ := h.left.exists_of_mem_dues hdue
  exact h.right.exists_mem_dues ((congrArg (·.bind Binding.deadline) (h.same key)).symm.trans hkey)

/-- Lists that each have something at most as great as what is in the other have the same least. -/
theorem min?_congr {l m : List Nat} (hl : ∀ a ∈ l, ∃ b ∈ m, b ≤ a) (hm : ∀ b ∈ m, ∃ a ∈ l, a ≤ b) :
    l.min? = m.min? := by
  cases hmin : l.min? with
  | none =>
    rw [List.min?_eq_none_iff] at hmin
    cases m with
    | nil => rfl
    | cons b m =>
      obtain ⟨a, ha, -⟩ := hm b List.mem_cons_self
      rw [hmin] at ha
      cases ha
  | some a =>
    obtain ⟨ha, hleast⟩ := List.min?_eq_some_iff.mp hmin
    obtain ⟨b, hb, hba⟩ := hl a ha
    have hle : ∀ c ∈ m, a ≤ c := fun c hc => by
      obtain ⟨d, hd, hdc⟩ := hm c hc
      exact (hleast d hd).trans hdc
    rw [Nat.le_antisymm hba (hle b hb)] at hb
    exact (List.min?_eq_some_iff.mpr ⟨hb, hle⟩).symm

theorem Alike.nextDue (h : Alike s t) : s.nextDue.1 = t.nextDue.1 ∧ Alike s.nextDue.2 t.nextDue.2 := by
  obtain ⟨hsplaced, hsbinding⟩ := h.left.nextDue
  obtain ⟨htplaced, htbinding⟩ := h.right.nextDue
  refine ⟨?_, hsplaced, htplaced, fun k => ?_⟩
  · rw [nextDue_fst, nextDue_fst]
    exact min?_congr (fun _ => h.exists_mem_dues) fun _ => h.symm.exists_mem_dues
  · rw [hsbinding, htbinding, h.same]

/-! ### Histories -/

/-- Alike stores do every task with the same result and stay alike. -/
theorem Alike.task (h : Alike s t) (task : Task) :
    (task.run s).1 = (task.run t).1 ∧ Alike (task.run s).2 (task.run t).2 := by
  cases task with
  | request now args =>
    obtain ⟨hreply, hstores⟩ := h.request now args
    exact ⟨congrArg Task.Result.reply hreply, hstores⟩
  | sweepAll now =>
    obtain ⟨hcount, hstores⟩ := h.sweepAll now
    exact ⟨congrArg Task.Result.swept hcount, hstores⟩
  | nextDue =>
    obtain ⟨hdue, hstores⟩ := h.nextDue
    exact ⟨congrArg Task.Result.due hdue, hstores⟩

theorem Alike.runTasks : ∀ (tasks : List Task) {s t : Store}, Alike s t →
    (s.runTasks tasks).1 = (t.runTasks tasks).1 ∧ Alike (s.runTasks tasks).2 (t.runTasks tasks).2
  | [], _, _, h => ⟨rfl, h⟩
  | task :: tasks, s, t, h => by
    obtain ⟨hresult, hnext⟩ := h.task task
    obtain ⟨hresults, hlast⟩ := Alike.runTasks tasks hnext
    exact ⟨congrArg₂ List.cons hresult hresults, hlast⟩

theorem Placed.runTasks (h : s.Placed) (tasks : List Task) : (s.runTasks tasks).2.Placed :=
  (Alike.runTasks tasks h.alike).2.left

/-- In every store that tasks lead to, every key is in its shard. -/
theorem placed_runTasks (hash : Bytes → UInt64) (count : Nat) (mode : Mode) (tasks : List Task) :
    ((emptyBy hash count mode).runTasks tasks).2.Placed :=
  (placed_emptyBy hash count mode).runTasks tasks

/-- **How many shards there are and how keys are spread over them does not show.** Two stores, each with
shards and a hash of its own, give the same results for the same tasks at any readings of the clock, and
after each of them they count the same keys. A key is only ever in the shard that its hash selects, so never
in two. -/
theorem sharding_transparent (hash hash' : Bytes → UInt64) (n m : Nat) (mode mode' : Mode)
    (tasks : List Task) :
    ((emptyBy hash n mode).runTasks tasks).1 = ((emptyBy hash' m mode').runTasks tasks).1 ∧
    ∀ j, let s := ((emptyBy hash n mode).runTasks (tasks.take j)).2
      let t := ((emptyBy hash' m mode').runTasks (tasks.take j)).2
      s.size = t.size ∧ s.isEmpty = t.isEmpty ∧
      ∀ (i : Nat) (shard : Shard) (key : Bytes), s.shardAt? i = some shard → shard.contains key = true →
        s.index key = i ∧ ∀ (l : Nat) (other : Shard), s.shardAt? l = some other →
          other.contains key = true → l = i := by
  have hempty : Alike (emptyBy hash n mode) (emptyBy hash' m mode') := alike_emptyBy ..
  refine ⟨(Alike.runTasks tasks hempty).1, fun j => ?_⟩
  obtain ⟨-, hafter⟩ := Alike.runTasks (tasks.take j) hempty
  refine ⟨hafter.size, hafter.isEmpty, fun i shard key hi hkey => ?_⟩
  have hhome := hafter.left.home i shard key hi hkey
  exact ⟨hhome, fun l other hl hother => (hafter.left.home l other key hl hother).symm.trans hhome⟩

end Store
end Keyspace
