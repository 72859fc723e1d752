/-
# What holds of every binding

Some things hold of each binding in a store, whatever its key: that what it holds is not too long, or that its
hash is not empty. If an operation keeps such a thing, said of the one binding that it finds (`Operation.Keeps`),
then performing it keeps it everywhere in the store, as other keys are left alone. A request keeps what all
its operations keep, sweeping takes bindings away and brings up none, and so a history keeps what its
requests keep (`Everywhere.task`).

The results of the operations are known as well: each is what the operation answers over some binding
of the sort, or over none (`Everywhere.perform`).

Key definitions: `Operation.Keeps`, `Task.Keeps`, `Store.Everywhere`.
Key theorems: `Everywhere.perform`, `Everywhere.request`, `Everywhere.task`.
-/
import Keyspace.Command.Task
import Keyspace.Proofs.Command.Footprint

namespace Keyspace

open Shard (Operation Result)

/-- Where it finds a binding of some sort, or none, the operation leaves a binding of the sort, or none. -/
def Shard.Operation.Keeps (op : Operation) (sort : Binding → Prop) : Prop :=
  ∀ b : Option Binding, (∀ a ∈ b, sort a) → ∀ a ∈ (op.onBinding b).2, sort a

/-- All operations of the task keep a sort of bindings. Maintenance keeps every sort. -/
def Task.Keeps (task : Task) (sort : Binding → Prop) : Prop :=
  match task with
  | request now args => ∀ call ops, Call.ofRequest args = .ok call → call.operations now = .ok ops →
      ∀ op ∈ ops, op.Keeps sort
  | sweepAll _ | nextDue => True

theorem Binding.live_sorted {sort : Binding → Prop} {b : Option Binding} (h : ∀ a ∈ b, sort a) (now : Instant) :
    ∀ a ∈ live now b, sort a := by
  intro a ha
  exact h a (Option.eq_some_of_filter_eq_some ha)

namespace Store

/-- Every key is in its shard, and every binding is of some sort. -/
structure Everywhere (s : Store) (sort : Binding → Prop) : Prop where
  placed : s.Placed
  sorted : ∀ key, ∀ b ∈ s.binding? key, sort b

variable {s : Store} {sort : Binding → Prop} {now : Instant}

theorem everywhere_emptyBy (hash : Bytes → UInt64) (count : Nat) (mode : Mode) (sort : Binding → Prop) :
    (emptyBy hash count mode).Everywhere sort where
  placed := placed_emptyBy hash count mode
  sorted := fun key b hb => by
    rw [binding?_emptyBy] at hb
    cases hb

theorem Everywhere.finds (h : s.Everywhere sort) (op : Operation) (key : Bytes) :
    ∀ b ∈ op.finds (s.binding? key), sort b := by
  unfold Operation.finds
  split
  · exact Binding.live_sorted (h.sorted key) _
  · exact h.sorted key

theorem Everywhere.run (h : s.Everywhere sort) {op : Operation} (hop : op.Keeps sort) :
    (∃ b, (∀ a ∈ b, sort a) ∧ (s.run op).1 = (op.onBinding b).1) ∧ (s.run op).2.Everywhere sort := by
  cases hkey : op.key? with
  | none =>
    rw [run_maintenance s hkey]
    refine ⟨⟨none, nofun, ?_⟩, h⟩
    cases op with
    | sweep _ | nextDue => rfl
    | _ => cases hkey
  | some key =>
    obtain ⟨hresult, hplaced, hchanges⟩ := h.placed.run op hkey
    refine ⟨⟨_, h.finds op key, hresult⟩, hplaced, fun k b hb => ?_⟩
    by_cases hk : k = key
    · rw [hk, hchanges.self] at hb
      exact hop _ (h.finds op key) b hb
    · rw [hchanges.others k hk] at hb
      exact h.sorted k b hb

/-- Operations that each keep the sort keep it one after another. -/
theorem Everywhere.perform : ∀ (ops : List Operation) {s : Store}, s.Everywhere sort →
    (∀ op ∈ ops, op.Keeps sort) →
    (∀ r ∈ (s.perform ops).1, ∃ op ∈ ops, ∃ b, (∀ a ∈ b, sort a) ∧ r = (op.onBinding b).1) ∧
    (s.perform ops).2.Everywhere sort
  | [], _, h, _ => ⟨nofun, h⟩
  | op :: ops, s, h, hops => by
    obtain ⟨⟨b, hb, hresult⟩, hnext⟩ := h.run (hops op List.mem_cons_self)
    have hfirst : ∃ o ∈ op :: ops, ∃ b, (∀ a ∈ b, sort a) ∧ (s.run op).1 = (o.onBinding b).1 :=
      ⟨op, List.mem_cons_self, b, hb, hresult⟩
    cases hrefused : (s.run op).1.isRefused with
    | true =>
      rw [perform_cons_of_refused ops hrefused]
      exact ⟨fun r hr => List.mem_singleton.mp hr ▸ hfirst, hnext⟩
    | false =>
      obtain ⟨hrest, hlast⟩ := Everywhere.perform ops hnext fun o ho => hops o (List.mem_cons_of_mem op ho)
      rw [perform_cons ops hrefused]
      refine ⟨fun r hr => ?_, hlast⟩
      rcases List.mem_cons.mp hr with rfl | hr
      · exact hfirst
      · obtain ⟨o, ho, hr⟩ := hrest r hr
        exact ⟨o, List.mem_cons_of_mem op ho, hr⟩

theorem Everywhere.request (h : s.Everywhere sort) {args : List Bytes}
    (hargs : (Task.request now args).Keeps sort) : (execute now s args).2.Everywhere sort := by
  rcases execute_cases now args with ⟨e, hfails⟩ | ⟨call, ops, hcall, hops, hruns⟩
  · rw [hfails]
    exact h
  · rw [hruns]
    exact (Everywhere.perform ops h (hargs call ops hcall hops)).2

/-- **A task keeps everywhere what its operations keep.** -/
theorem Everywhere.task (h : s.Everywhere sort) {task : Task} (htask : task.Keeps sort) :
    (task.run s).2.Everywhere sort := by
  cases task with
  | request now args => exact h.request htask
  | sweepAll now =>
    obtain ⟨hplaced, hbinding⟩ := h.placed.sweepAll now
    refine ⟨hplaced, fun key b hb => ?_⟩
    have hb' : b ∈ (s.sweepAll now).2.binding? key := hb
    rw [hbinding] at hb'
    exact Binding.live_sorted (h.sorted key) now b hb'
  | nextDue =>
    obtain ⟨hplaced, hbinding⟩ := h.placed.nextDue
    refine ⟨hplaced, fun key b hb => ?_⟩
    have hb' : b ∈ s.nextDue.2.binding? key := hb
    rw [hbinding] at hb'
    exact h.sorted key b hb'

end Store
end Keyspace
