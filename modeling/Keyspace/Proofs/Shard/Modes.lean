/-
# The two modes are interchangeable

A shard finds its due keys through an agenda or by looking through all its deadlines. No operation
tells one way from the other: two shards that hold the same bindings, each of them sound in a mode of its
own, answer alike and hold the same bindings afterwards (`Twins.run`), at whatever times. So the modes
agree on every result of a history and on everything that can be counted in between
(`runAll_linear_heap`).

Key definition: `Twins`.
Key theorems: `Twins.run`, `runAll_linear_heap`.
-/
import Keyspace.Proofs.Shard.Meaning

namespace Keyspace
namespace Shard

/-- Two sound shards with the same bindings, each in a mode of its own. -/
structure Twins (s t : Shard) (mode mode' : Mode) : Prop where
  left : s.Sound mode
  right : t.Sound mode'
  same : ∀ k, s.binding? k = t.binding? k

variable {s t : Shard} {mode mode' : Mode}

theorem twins_empty (mode mode' : Mode) : Twins (empty mode) (empty mode') mode mode' :=
  ⟨sound_empty mode, sound_empty mode', fun _ => rfl⟩

/-! ### What twins share -/

theorem Twins.strings (h : Twins s t mode mode') : s.strings = t.strings :=
  (h.left.eq_of_binding? h.right.toTidy h.same).1

theorem Twins.hashes (h : Twins s t mode mode') : s.hashes = t.hashes :=
  (h.left.eq_of_binding? h.right.toTidy h.same).2.1

theorem Twins.deadlines (h : Twins s t mode mode') : s.deadlines = t.deadlines :=
  (h.left.eq_of_binding? h.right.toTidy h.same).2.2

theorem Twins.size (h : Twins s t mode mode') : s.size = t.size := by
  rw [Shard.size, Shard.size, h.strings, h.hashes]

theorem Twins.expiring (h : Twins s t mode mode') : s.expiring = t.expiring :=
  congrArg Std.ExtTreeMap.size h.deadlines

/-- Twins sweep the same number of keys: the deadlines that each of them loses are the same. -/
theorem Twins.sweep (h : Twins s t mode mode') (now : Instant) :
    (s.sweep now).1 = (t.sweep now).1 ∧ Twins (s.sweep now).2 (t.sweep now).2 mode mode' := by
  have hs := h.left.sweep_count now
  have ht := h.right.sweep_count now
  rw [h.deadlines] at hs
  refine ⟨Nat.add_right_cancel (hs.trans ht.symm), h.left.sweep now, h.right.sweep now, fun k => ?_⟩
  rw [h.left.binding?_sweep, h.right.binding?_sweep, h.same]

/-- Twins name the same earliest deadline, which is the least whichever way it is found. -/
theorem Twins.nextDue (h : Twins s t mode mode') :
    s.nextDue.1 = t.nextDue.1 ∧ Twins s.nextDue.2 t.nextDue.2 mode mode' := by
  obtain ⟨hs, hsound, -⟩ := h.left.nextDue
  obtain ⟨ht, htsound, -⟩ := h.right.nextDue
  rw [h.deadlines] at hs
  refine ⟨hs.unique ht, hsound, htsound, fun k => ?_⟩
  rw [h.left.binding?_nextDue, h.right.binding?_nextDue, h.same]

/-! ### Histories -/

theorem Twins.run_key (h : Twins s t mode mode') (op : Operation) {key : Bytes} (hop : op.key? = some key) :
    (op.run s).1 = (op.run t).1 ∧ Twins (op.run s).2 (op.run t).2 mode mode' := by
  obtain ⟨hs, hs'⟩ := h.left.run_binding op hop
  obtain ⟨ht, ht'⟩ := h.right.run_binding op hop
  rw [← h.same] at ht ht'
  refine ⟨hs.trans ht.symm, h.left.run op, h.right.run op, fun k => ?_⟩
  by_cases hk : k = key
  · rw [hk, hs'.self, ht'.self]
  · rw [hs'.others k hk, ht'.others k hk, h.same]

/-- Twins answer every operation alike and stay twins. -/
theorem Twins.run (h : Twins s t mode mode') (op : Operation) :
    (op.run s).1 = (op.run t).1 ∧ Twins (op.run s).2 (op.run t).2 mode mode' := by
  cases op with
  | sweep now =>
    obtain ⟨hcount, htwins⟩ := h.sweep now
    exact ⟨congrArg Result.count hcount, htwins⟩
  | nextDue =>
    obtain ⟨hdue, htwins⟩ := h.nextDue
    exact ⟨congrArg Result.due hdue, htwins⟩
  | _ => exact h.run_key _ rfl

theorem Twins.runAll : ∀ (ops : List Operation) {s t : Shard}, Twins s t mode mode' →
    (s.runAll ops).1 = (t.runAll ops).1 ∧ Twins (s.runAll ops).2 (t.runAll ops).2 mode mode'
  | [], _, _, h => ⟨rfl, h⟩
  | op :: ops, s, t, h => by
    obtain ⟨hresult, hnext⟩ := h.run op
    obtain ⟨hresults, hlast⟩ := Twins.runAll ops hnext
    exact ⟨congrArg₂ List.cons hresult hresults, hlast⟩

/-- **Linear and heap mode cannot be told apart.** From the empty shard they give the same results, and
after each operation they count the same keys and deadlines and hold the same maps. -/
theorem runAll_linear_heap (ops : List Operation) :
    ((empty .linear).runAll ops).1 = ((empty .heap).runAll ops).1 ∧
    ∀ n, let l := ((empty .linear).runAll (ops.take n)).2
      let h := ((empty .heap).runAll (ops.take n)).2
      l.size = h.size ∧ l.isEmpty = h.isEmpty ∧ l.expiring = h.expiring ∧
      l.strings = h.strings ∧ l.hashes = h.hashes ∧ l.deadlines = h.deadlines := by
  refine ⟨(Twins.runAll ops (twins_empty .linear .heap)).1, fun n => ?_⟩
  obtain ⟨-, htwins⟩ := Twins.runAll (ops.take n) (twins_empty .linear .heap)
  exact ⟨htwins.size, congrArg (· == 0) htwins.size, htwins.expiring, htwins.strings, htwins.hashes,
    htwins.deadlines⟩

end Shard
end Keyspace
