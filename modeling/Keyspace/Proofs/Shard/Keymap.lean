/-
# A shard is one map whose keys vanish on time

The reference is a single map from keys to bindings, out of which every binding goes the instant its
deadline is reached. An operation that names a key means to it what `Operation.onBinding` says, and
maintenance means nothing to it.

A shard evicts late, and only the keys it is asked about, so it may hold what the reference has dropped.
It follows the reference (`Follows`) if from some time on the two agree on what is live. An operation at a
later time finds under its key a live binding or none, the same on both sides, so it answers the same and
leaves the same behind (`Follows.run`); a sweep takes away only what the reference has no more.

Key definitions: `Keymap.run`, `Follows`, `InOrder`.
Key theorems: `Follows.run`, `runAll_follows_keymap`.
-/
import Keyspace.Proofs.Shard.Meaning
import Mathlib.Data.List.ReduceOption

namespace Keyspace

/-- One map for everything: the bindings by key. -/
abbrev Keymap := Dict Binding

namespace Keymap

open Shard (Operation Result)

/-- What is live of the map. -/
def dropExpired (m : Keymap) (now : Instant) : Keymap := m.filter fun _ b => b.isLive now

/-- The map in which the key has this binding, or none. -/
def put (m : Keymap) (key : Bytes) : Option Binding → Keymap
  | some b => m.insert key b
  | none => m.erase key

/-- Performs an operation on the map. Everything whose deadline has been reached is gone before. -/
def run (m : Keymap) (op : Operation) : Option Result × Keymap :=
  match op.key? with
  | none => (none, m)
  | some key =>
    let m := match op.now? with
      | some now => m.dropExpired now
      | none => m
    let (result, b) := op.onBinding m[key]?
    (some result, m.put key b)

/-- Performs a history, oldest operation first. -/
def runAll (m : Keymap) : List Operation → List (Option Result) × Keymap
  | [] => ([], m)
  | op :: ops =>
    let (r, m) := m.run op
    let (rs, m) := m.runAll ops
    (r :: rs, m)

variable {m : Keymap} {key k : Bytes} {now : Instant} {op : Operation}

theorem getElem?_dropExpired : (m.dropExpired now)[k]? = Binding.live now m[k]? :=
  Std.ExtTreeMap.getElem?_filter'

theorem getElem?_put_self : ∀ b : Option Binding, (m.put key b)[key]? = b
  | some _ => Std.ExtTreeMap.getElem?_insert_self
  | none => Std.ExtTreeMap.getElem?_erase_self

theorem getElem?_put_ne (h : k ≠ key) : ∀ b : Option Binding, (m.put key b)[k]? = m[k]?
  | some _ => Dict.getElem?_insert_ne h
  | none => Dict.getElem?_erase_ne h

theorem run_maintenance (h : op.key? = none) : m.run op = (none, m) := by
  rw [run, h]

theorem run_timed (hk : op.key? = some key) (ht : op.now? = some now) :
    m.run op = (some (op.onBinding (Binding.live now m[key]?)).1,
      (m.dropExpired now).put key (op.onBinding (Binding.live now m[key]?)).2) := by
  rw [run, hk, ht, ← getElem?_dropExpired]

theorem run_untimed (hk : op.key? = some key) (ht : op.now? = none) :
    m.run op = (some (op.onBinding m[key]?).1, m.put key (op.onBinding m[key]?).2) := by
  rw [run, hk, ht]

theorem run_isSome (h : op.key? = some key) : ∃ a, (m.run op).1 = some a := by
  cases ht : op.now? with
  | some now => exact ⟨_, by rw [run_timed h ht]⟩
  | none => exact ⟨_, by rw [run_untimed h ht]⟩

theorem runAll_cons {ops : List Operation} :
    (m.runAll (op :: ops)).1 = (m.run op).1 :: ((m.run op).2.runAll ops).1 := rfl

/-- What the map answers does not depend on maintenance. -/
theorem runAll_filter : ∀ (ops : List Operation) (m : Keymap), (m.runAll ops).1.reduceOption =
    (m.runAll (ops.filter fun op => op.key?.isSome)).1.reduceOption
  | [], _ => rfl
  | op :: ops, m => by
    cases hk : op.key? with
    | some key =>
      obtain ⟨a, ha⟩ := run_isSome hk
      rw [List.filter_cons_of_pos (by rw [hk]; rfl), runAll_cons, runAll_cons, ha,
        List.reduceOption_cons_of_some, List.reduceOption_cons_of_some, runAll_filter]
    | none =>
      rw [List.filter_cons_of_neg (by rw [hk]; simp), runAll_cons, run_maintenance hk,
        List.reduceOption_cons_of_none, runAll_filter]

end Keymap

namespace Shard

variable {s : Shard} {m : Keymap} {key : Bytes} {mode : Mode} {t now : Instant}

/-- The reference answers the same as the shard, if it answers at all. -/
def Agrees (reference : Option Result) (r : Result) : Prop := ∀ a, reference = some a → r = a

/-- From the time `t` on, the same bindings are live in the shard as in the reference. -/
def Follows (s : Shard) (m : Keymap) (t : Instant) : Prop :=
  ∀ (k : Bytes) (now : Instant), t ≤ now → Binding.live now (s.binding? k) = Binding.live now m[k]?

theorem follows_empty (mode : Mode) (t : Instant) : (empty mode).Follows ∅ t := by
  intro k now _
  have hs : (empty mode).strings[k]? = none := Std.ExtTreeMap.getElem?_empty
  have hh : (empty mode).hashes[k]? = none := Std.ExtTreeMap.getElem?_empty
  rw [Std.ExtTreeMap.getElem?_empty, binding?, hs, hh]

/-! ### Single operations -/

/-- Storing a string does not look at what was there. -/
theorem Operation.onBinding_untimed {op : Operation} (hk : op.key? = some key) (ht : op.now? = none)
    (b c : Option Binding) : op.onBinding b = op.onBinding c := by
  cases op with
  | set k value => rfl
  | setWithDeadline k value due => rfl
  | nextDue => cases hk
  | _ => cases ht

theorem Follows.run_timed (h : s.Follows m t) (hs : s.Sound mode) {op : Operation}
    (hk : op.key? = some key) (hnow : op.now? = some now) (ht : t ≤ now) :
    Agrees (m.run op).1 (op.run s).1 ∧ (op.run s).2.Follows (m.run op).2 now := by
  have hfinds : op.finds (s.binding? key) = Binding.live now m[key]? := by
    rw [Operation.finds, hnow]
    exact h key now ht
  obtain ⟨hresult, hchanges⟩ := hs.run_binding op hk
  rw [hfinds] at hresult hchanges
  rw [Keymap.run_timed hk hnow]
  refine ⟨fun a ha => hresult.trans (Option.some.inj ha), fun k later hl => ?_⟩
  by_cases hkey : k = key
  · rw [hkey, hchanges.self, Keymap.getElem?_put_self]
  · rw [hchanges.others k hkey, Keymap.getElem?_put_ne hkey, Keymap.getElem?_dropExpired,
      Binding.live_live hl]
    exact h k later (Nat.le_trans ht hl)

theorem Follows.run_untimed (h : s.Follows m t) (hs : s.Sound mode) {op : Operation}
    (hk : op.key? = some key) (hnow : op.now? = none) :
    Agrees (m.run op).1 (op.run s).1 ∧ (op.run s).2.Follows (m.run op).2 t := by
  obtain ⟨hresult, hchanges⟩ := hs.run_binding op hk
  rw [Operation.onBinding_untimed hk hnow _ m[key]?] at hresult hchanges
  rw [Keymap.run_untimed hk hnow]
  refine ⟨fun a ha => hresult.trans (Option.some.inj ha), fun k later hl => ?_⟩
  by_cases hkey : k = key
  · rw [hkey, hchanges.self, Keymap.getElem?_put_self]
  · rw [hchanges.others k hkey, Keymap.getElem?_put_ne hkey]
    exact h k later hl

theorem Follows.sweep (h : s.Follows m t) (hs : s.Sound mode) (ht : t ≤ now) :
    (s.sweep now).2.Follows m now := by
  intro k later hl
  rw [hs.binding?_sweep, Binding.live_live hl]
  exact h k later (Nat.le_trans ht hl)

theorem Follows.nextDue (h : s.Follows m t) (hs : s.Sound mode) : s.nextDue.2.Follows m t := by
  intro k now hn
  rw [hs.binding?_nextDue]
  exact h k now hn

/-- An operation that does not go back in time answers what the reference answers, and the shard keeps
following it. -/
theorem Follows.run (h : s.Follows m t) (hs : s.Sound mode) (op : Operation)
    (ht : ∀ now, op.now? = some now → t ≤ now) :
    Agrees (m.run op).1 (op.run s).1 ∧ (op.run s).2.Follows (m.run op).2 (op.now?.getD t) := by
  cases hk : op.key? with
  | some key =>
    cases hnow : op.now? with
    | some now => exact h.run_timed hs hk hnow (ht now hnow)
    | none => exact h.run_untimed hs hk hnow
  | none =>
    rw [Keymap.run_maintenance hk]
    constructor
    · intro a ha
      cases ha
    · cases op with
      | sweep now => exact h.sweep hs (ht now rfl)
      | nextDue => exact h.nextDue hs
      | _ => cases hk

/-! ### Histories in order of time -/

/-- The times at which operations look at deadlines do not decrease. -/
def InOrder (ops : List Operation) : Prop := (ops.filterMap Operation.now?).Pairwise (· ≤ ·)

instance : DecidablePred InOrder := fun ops => by unfold InOrder; infer_instance

/-- No operation looks at deadlines before the time `t`. -/
def NotBefore (t : Instant) (ops : List Operation) : Prop :=
  ∀ op ∈ ops, ∀ now, op.now? = some now → t ≤ now

theorem InOrder.tail {op : Operation} {ops : List Operation} (h : InOrder (op :: ops)) : InOrder ops := by
  cases hn : op.now? with
  | none => rwa [InOrder, List.filterMap_cons_none hn] at h
  | some now =>
    rw [InOrder, List.filterMap_cons_some hn] at h
    exact (List.pairwise_cons.mp h).2

/-- What comes after an operation is not before the time at which that looked. -/
theorem InOrder.notBefore {op : Operation} {ops : List Operation} (h : InOrder (op :: ops))
    (ht : NotBefore t (op :: ops)) : NotBefore (op.now?.getD t) ops := by
  intro next hmem later hl
  cases hn : op.now? with
  | none => exact ht next (List.mem_cons_of_mem op hmem) later hl
  | some now =>
    rw [InOrder, List.filterMap_cons_some hn] at h
    exact (List.pairwise_cons.mp h).1 later (List.mem_filterMap.mpr ⟨next, hmem, hl⟩)

/-- The answers to the operations that name a key, without those of maintenance in between. -/
def answers (s : Shard) (ops : List Operation) : List Result :=
  (ops.zip (s.runAll ops).1).filterMap fun (op, r) => op.key?.map fun _ => r

theorem answers_cons_key {op : Operation} {ops : List Operation} (h : op.key? = some key) :
    s.answers (op :: ops) = (op.run s).1 :: (op.run s).2.answers ops := by
  refine List.filterMap_cons_some (b := (op.run s).1) ?_
  show op.key?.map _ = _
  rw [h]
  rfl

theorem answers_cons_maintenance {op : Operation} {ops : List Operation} (h : op.key? = none) :
    s.answers (op :: ops) = (op.run s).2.answers ops := by
  refine List.filterMap_cons_none ?_
  show op.key?.map _ = _
  rw [h]
  rfl

/-- A shard that follows the reference answers like it for the rest of a history in order. -/
theorem Follows.runAll : ∀ (ops : List Operation) {s : Shard} {m : Keymap} {t : Instant},
    s.Follows m t → s.Sound mode → NotBefore t ops → InOrder ops →
    List.Forall₂ Agrees (m.runAll ops).1 (s.runAll ops).1 ∧
    s.answers ops = (m.runAll ops).1.reduceOption
  | [], _, _, _, _, _, _, _ => ⟨.nil, rfl⟩
  | op :: ops, s, m, t, h, hs, ht, ho => by
    obtain ⟨hagrees, hnext⟩ := h.run hs op (ht op List.mem_cons_self)
    obtain ⟨hall, hanswers⟩ := Follows.runAll ops hnext (hs.run op) (ho.notBefore ht) ho.tail
    refine ⟨.cons hagrees hall, ?_⟩
    rw [Keymap.runAll_cons]
    cases hk : op.key? with
    | some key =>
      obtain ⟨a, ha⟩ := Keymap.run_isSome hk
      rw [answers_cons_key hk, ha, List.reduceOption_cons_of_some, hagrees a ha, hanswers]
    | none =>
      have hnone : (m.run op).1 = none := by rw [Keymap.run_maintenance hk]
      rw [answers_cons_maintenance hk, hnone, List.reduceOption_cons_of_none, hanswers]

theorem runAll_empty_follows (mode : Mode) (ops : List Operation) (h : InOrder ops) :
    List.Forall₂ Agrees (Keymap.runAll ∅ ops).1 ((empty mode).runAll ops).1 ∧
    (empty mode).answers ops = (Keymap.runAll ∅ ops).1.reduceOption :=
  Follows.runAll ops (follows_empty mode 0) (sound_empty mode) (fun _ _ _ _ => Nat.zero_le _) h

/-- **A shard behaves like one map whose keys vanish when their deadline is reached.** In a history in
order of time, every operation that names a key answers what it means for that map; and the answers do not
depend on the mode, nor on the maintenance in between. -/
theorem runAll_follows_keymap (mode : Mode) (ops : List Operation) (h : InOrder ops) :
    List.Forall₂ Agrees (Keymap.runAll ∅ ops).1 ((empty mode).runAll ops).1 ∧
    ∀ (mode' : Mode) (ops' : List Operation), InOrder ops' →
      ops'.filter (fun op => op.key?.isSome) = ops.filter (fun op => op.key?.isSome) →
      (empty mode').answers ops' = (empty mode).answers ops := by
  obtain ⟨hagrees, hanswers⟩ := runAll_empty_follows mode ops h
  refine ⟨hagrees, fun mode' ops' h' hsame => ?_⟩
  obtain ⟨-, hanswers'⟩ := runAll_empty_follows mode' ops' h'
  calc (empty mode').answers ops' = (Keymap.runAll ∅ ops').1.reduceOption := hanswers'
    _ = (Keymap.runAll ∅ (ops'.filter fun op => op.key?.isSome)).1.reduceOption :=
      Keymap.runAll_filter ops' ∅
    _ = (Keymap.runAll ∅ ops).1.reduceOption := by rw [hsame, ← Keymap.runAll_filter]
    _ = (empty mode).answers ops := hanswers.symm

/-- A hash that expires between two looks at it, with maintenance in between. -/
def lapse (maintenance : List Operation) : List Operation :=
  [.hashSet [107] [([102], [118])] 0, .setExpire [107] 10 1, .hashSize [107] 9] ++ maintenance ++
    [.hashSize [107] 10, .set [107] [118], .ttlMillis [107] 12]

theorem lapse_follows_keymap :
    InOrder (lapse []) ∧
    (Keymap.runAll ∅ (lapse [])).1 = [some (.count 1), some (.flag true), some (.count 1), some (.count 0),
      some .done, some (.ttl (-1))] ∧
    List.Forall₂ Agrees (Keymap.runAll ∅ (lapse [])).1 ((empty .linear).runAll (lapse [])).1 ∧
    InOrder (lapse [.sweep 9, .nextDue, .sweep 10]) ∧
    (empty .heap).answers (lapse [.sweep 9, .nextDue, .sweep 10]) = (empty .linear).answers (lapse []) :=
  ⟨by decide, by decide +kernel, (runAll_follows_keymap .linear (lapse []) (by decide)).1, by decide,
    (runAll_follows_keymap .linear (lapse []) (by decide)).2 .heap (lapse [.sweep 9, .nextDue, .sweep 10])
      (by decide) rfl⟩

end Shard
end Keyspace
