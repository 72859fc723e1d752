/-
# A sweep takes exactly the expired keys

A sweep of all shards drops the bindings that are not live (`Placed.sweepAll`). Seen from the shards this
is exact: what a shard holds under a key is gone if the deadline that it has there is reached, and is as
before if not (`Placed.held_sweepAll`). The count is that of the keys that go, as the deadlines of all
shards are those that are due and those that are pending, each key once (`Placed.perm_due_pending`).

What is left has its deadline ahead (`Store.Ahead`). So looking for the earliest deadline finds a later
one or none, and until someone asks for something else, no sweep at that time or before finds a key
(`Ahead.runTasks`).

Key definitions: `Store.Due`, `Store.Earliest`, `Store.Ahead`, `Task.MaintainsBy`.
Key theorems: `Placed.held_sweepAll`, `Placed.sweepAll_keys`, `Ahead.runTasks`, `sweep_exact`.
-/
import Keyspace.Proofs.Store.Contents

namespace Keyspace

/-- The task sweeps at an instant that is no later, or looks for the earliest deadline. -/
def Task.MaintainsBy (now : Instant) : Task → Prop
  | request _ _ => False
  | sweepAll instant => instant ≤ now
  | nextDue => True

namespace Store
variable {s t : Store} {i : Nat} {key : Bytes} {now due : Instant}

/-! ### Deadlines, shard by shard -/

/-- The shard at a place holds a key with this deadline. -/
def Due (s : Store) (i : Nat) (key : Bytes) (due : Instant) : Prop :=
  ∃ string hash, s.held i key = some (string, hash, some due)

/-- The earliest deadline that a shard holds, if there is a deadline at all. -/
def Earliest (s : Store) : Option Instant → Prop
  | none => ∀ i key due, ¬ s.Due i key due
  | some first => (∃ i key, s.Due i key first) ∧ ∀ i key due, s.Due i key due → first ≤ due

/-- All deadlines are later. -/
def Ahead (s : Store) (now : Instant) : Prop :=
  ∀ key due, (s.binding? key).bind Binding.deadline = some due → now < due

theorem Placed.due_iff (h : s.Placed) :
    s.Due i key due ↔ (s.index key : Nat) = i ∧ (s.binding? key).bind Binding.deadline = some due := by
  unfold Due
  rw [h.held_eq]
  have hindex : (s.index key : Nat) ≤ s.extra := Nat.le_of_lt_succ (s.index key).isLt
  by_cases hi : (s.index key : Nat) = i
  · subst hi
    simp [hindex, Binding.parts]
  · simp [hi, Binding.parts]

theorem Placed.exists_due_iff (h : s.Placed) {p : Instant → Prop} :
    (∃ i due, s.Due i key due ∧ p due) ↔ ∃ due, (s.binding? key).bind Binding.deadline = some due ∧ p due := by
  constructor
  · rintro ⟨i, due, hdue, hp⟩
    exact ⟨due, (h.due_iff.mp hdue).2, hp⟩
  · rintro ⟨due, hdue, hp⟩
    exact ⟨_, due, h.due_iff.mpr ⟨rfl, hdue⟩, hp⟩

/-- The earliest deadline of the shards is the earliest of all deadlines. -/
theorem Placed.earliest_nextDue (h : s.Placed) : s.Earliest s.nextDue.1 := by
  rw [nextDue_fst]
  have hbefore : ∀ i key due, s.Due i key due → ∃ first ∈ s.dues, first ≤ due := fun i key due hdue =>
    h.exists_mem_dues (h.due_iff.mp hdue).2
  cases hmin : s.dues.min? with
  | none =>
    have hnil : s.dues = [] := List.min?_eq_none_iff.mp hmin
    intro i key due hdue
    obtain ⟨first, hfirst, -⟩ := hbefore i key due hdue
    simp [hnil] at hfirst
  | some first =>
    obtain ⟨hmem, hleast⟩ := List.min?_eq_some_iff.mp hmin
    obtain ⟨key, hkey⟩ := h.exists_of_mem_dues hmem
    refine ⟨⟨_, key, h.due_iff.mpr ⟨rfl, hkey⟩⟩, fun i key due hdue => ?_⟩
    obtain ⟨d, hd, hle⟩ := hbefore i key due hdue
    exact (hleast d hd).trans hle

/-! ### What a sweep takes -/

/-- A sweep takes all that a shard holds under a key whose deadline is reached, and leaves the rest. -/
theorem Placed.held_sweepAll (h : s.Placed) (now : Instant) (i : Nat) (key : Bytes) :
    (∀ due, s.Due i key due → due ≤ now → (s.sweepAll now).2.held i key = some (none, none, none)) ∧
    ((∀ due, s.Due i key due → now < due) → (s.sweepAll now).2.held i key = s.held i key) := by
  obtain ⟨hplaced, hbinding⟩ := h.sweepAll now
  have hl : s.SameLayout (s.sweepAll now).2 := ⟨rfl, rfl⟩
  refine ⟨fun due hdue hle => ?_, fun hahead => ?_⟩
  · obtain ⟨rfl, hdeadline⟩ := h.due_iff.mp hdue
    have hgone := Binding.live_of_le hdeadline hle
    have hindex : (s.index key : Nat) ≤ s.extra := Nat.le_of_lt_succ (s.index key).isLt
    rw [hplaced.held_eq, ← hl.index, ← hl.extra, if_pos hindex, if_pos rfl, hbinding, hgone]
    rfl
  · by_cases hi : (s.index key : Nat) = i
    · have hlive : Binding.live now (s.binding? key) = s.binding? key :=
        Binding.live_of_lt fun due hdue => hahead due (h.due_iff.mpr ⟨hi, hdue⟩)
      exact (hl.held_eq h hplaced ((hbinding key).trans hlive).symm i).symm
    · rw [hplaced.held_eq, h.held_eq, ← hl.index, ← hl.extra, if_neg hi, if_neg hi]

theorem lists_deadlines_due (now : Instant) :
    Lists (fun shard => shard.deadlines.due now) fun b =>
      ((b.bind Binding.deadline).filter fun due => Deadline.reached due now).isSome = true :=
  lists_deadlines (fun d => d.filter fun _ due => Deadline.reached due now)
    (Option.filter fun due => Deadline.reached due now) (fun _ _ => Std.ExtTreeMap.getElem?_filter') rfl

/-- The keys with a deadline are those that are due and those that are pending. -/
theorem Placed.perm_due_pending (h : s.Placed) (now : Instant) :
    (s.shards.toList.flatMap fun shard => shard.deadlines.keys).Perm
      ((s.shards.toList.flatMap fun shard => shard.deadlines.due now) ++
        s.shards.toList.flatMap fun shard => (shard.deadlines.pending now).keys) := by
  have hall := h.mem_flatMap lists_deadlines_all
  have hdue := h.mem_flatMap (lists_deadlines_due now)
  have hpending := h.mem_flatMap (lists_deadlines_pending now)
  have hnodup := List.Nodup.append (h.nodup_flatMap (lists_deadlines_due now))
    (h.nodup_flatMap (lists_deadlines_pending now)) fun key hleft hright => by
      rw [hdue] at hleft
      rw [hpending] at hright
      cases hd : (s.binding? key).bind Binding.deadline with
      | none => simp [hd] at hleft
      | some due => simp_all [Option.filter_some]
  refine (List.perm_ext_iff_of_nodup (h.nodup_flatMap lists_deadlines_all) hnodup).mpr fun key => ?_
  rw [List.mem_append, hall, hdue, hpending]
  cases (s.binding? key).bind Binding.deadline with
  | none => simp
  | some due => cases hr : Deadline.reached due now <;> simp [Option.filter_some, hr]

/-- A sweep counts the keys whose deadline is reached, each of them once. -/
theorem Placed.sweepAll_keys (h : s.Placed) (now : Instant) : ∃ keys : List Bytes, keys.Nodup ∧
    (∀ key, key ∈ keys ↔ ∃ i due, s.Due i key due ∧ due ≤ now) ∧ (s.sweepAll now).1 = keys.length := by
  have hcount := h.sweepAll_count now
  have hlength := (h.perm_due_pending now).length_eq
  rw [List.length_append] at hlength
  refine ⟨_, h.nodup_flatMap (lists_deadlines_due now), fun key => ?_, by omega⟩
  rw [h.mem_flatMap (lists_deadlines_due now), h.exists_due_iff]
  cases (s.binding? key).bind Binding.deadline with
  | none => simp
  | some due => simp [Option.filter_some, Deadline.reached]

/-! ### After a sweep -/

theorem Placed.ahead_sweepAll (h : s.Placed) (now : Instant) : (s.sweepAll now).2.Ahead now := by
  intro key due hdue
  rw [(h.sweepAll now).2] at hdue
  exact Binding.lt_of_live hdue

theorem Ahead.lt_nextDue (ha : s.Ahead now) (h : s.Placed) : ∀ due ∈ s.nextDue.1, now < due := by
  intro due hdue
  have hearliest := h.earliest_nextDue
  rw [Option.mem_def.mp hdue] at hearliest
  obtain ⟨i, key, hkey⟩ := hearliest.1
  exact ha key due (h.due_iff.mp hkey).2

theorem Ahead.alike (ha : s.Ahead now) (h : Alike t s) : t.Ahead now := by
  intro key due hdue
  rw [h.same] at hdue
  exact ha key due hdue

/-- A sweep that comes no later than all deadlines finds nothing and changes no binding. -/
theorem Ahead.sweepAll (ha : s.Ahead now) (h : s.Placed) (hle : due ≤ now) :
    (s.sweepAll due).1 = 0 ∧ Alike (s.sweepAll due).2 s := by
  obtain ⟨hplaced, hbinding⟩ := h.sweepAll due
  refine ⟨?_, hplaced, h, fun key => ?_⟩
  · obtain ⟨keys, -, hkeys, hcount⟩ := h.sweepAll_keys due
    have hnil : keys = [] := List.eq_nil_iff_forall_not_mem.mpr fun key hkey => by
      obtain ⟨d, hd, hdle⟩ := h.exists_due_iff.mp ((hkeys key).mp hkey)
      exact absurd (ha key d hd) (Nat.not_lt.mpr (hdle.trans hle))
    rw [hcount, hnil]
    rfl
  · rw [hbinding]
    exact Binding.live_of_lt fun d hd => Nat.lt_of_le_of_lt hle (ha key d hd)

/-- While all deadlines are ahead, maintenance finds nothing to do, and the earliest deadline stays. -/
theorem Ahead.runTasks : ∀ (tasks : List Task) {s : Store}, s.Ahead now → s.Placed →
    (∀ task ∈ tasks, task.MaintainsBy now) →
    ∀ r ∈ (s.runTasks tasks).1, r = .swept 0 ∨ r = .due s.nextDue.1
  | [], _, _, _, _ => nofun
  | task :: tasks, s, ha, h, htasks => by
    have hstep : ((task.run s).1 = .swept 0 ∨ (task.run s).1 = .due s.nextDue.1) ∧ Alike (task.run s).2 s := by
      have htask := htasks task List.mem_cons_self
      cases task with
      | request _ _ => exact htask.elim
      | sweepAll instant =>
        obtain ⟨hzero, hsame⟩ := ha.sweepAll h htask
        exact ⟨.inl (congrArg Task.Result.swept hzero), hsame⟩
      | nextDue =>
        obtain ⟨hplaced, hbinding⟩ := h.nextDue
        exact ⟨.inr rfl, hplaced, h, hbinding⟩
    obtain ⟨hresult, hsame⟩ := hstep
    have hrest := Ahead.runTasks tasks (ha.alike hsame) hsame.left fun t ht =>
      htasks t (List.mem_cons_of_mem task ht)
    rw [hsame.nextDue.1] at hrest
    intro r hr
    rcases List.mem_cons.mp hr with rfl | hr
    · exact hresult
    · exact hrest r hr

/-- **A sweep takes exactly the expired keys**, whatever has happened to the store before. It counts the keys
whose deadline is reached, takes all that is held under them, and leaves all that is held under any other key.
The earliest deadline is the least that a shard holds, before and after; after the sweep it is later than the
sweep. Until someone asks for something else, sweeping at that time or before finds no key. -/
theorem sweep_exact (hash : Bytes → UInt64) (count : Nat) (mode : Mode) (history : List Step) (now : Instant) :
    let s := (emptyBy hash count mode).after history
    let t := (s.sweepAll now).2
    (∃ keys : List Bytes, keys.Nodup ∧ (∀ key, key ∈ keys ↔ ∃ i due, s.Due i key due ∧ due ≤ now) ∧
      (s.sweepAll now).1 = keys.length) ∧
    (∀ i key, (∀ due, s.Due i key due → due ≤ now → t.held i key = some (none, none, none)) ∧
      ((∀ due, s.Due i key due → now < due) → t.held i key = s.held i key)) ∧
    s.Earliest s.nextDue.1 ∧ t.Earliest t.nextDue.1 ∧ (∀ due ∈ t.nextDue.1, now < due) ∧
    ∀ tasks : List Task, (∀ task ∈ tasks, task.MaintainsBy now) →
      ∀ r ∈ (t.runTasks tasks).1, r = .swept 0 ∨ r = .due t.nextDue.1 := by
  have hs := placed_after hash count mode history
  generalize (emptyBy hash count mode).after history = s at hs
  intro s t
  have ht : t.Placed := (hs.sweepAll now).1
  have hahead : t.Ahead now := hs.ahead_sweepAll now
  exact ⟨hs.sweepAll_keys now, hs.held_sweepAll now, hs.earliest_nextDue, ht.earliest_nextDue,
    hahead.lt_nextDue ht, fun tasks htasks => hahead.runTasks tasks ht htasks⟩

end Store
end Keyspace
