/-
# The agenda as a plain schedule

A `Schedule` is what an agenda is for: a map from keys to deadlines, each with its place in the order
of settings, and nothing else. There are no stale plans, no generations and no compaction.
`agenda_follows_schedule`: after every history of operations, an agenda shows the schedule of that
history, and whatever comes next it answers as the schedule does.

`Follows` is the simulation: the agenda tracks the deadlines of the schedule, and a younger
generation means a later setting. Generations are also given out by `clear`, so the two numberings
differ; only their order agrees.

Key definitions: `Schedule.step`, `Schedule.Answers`, `Agenda.Shows`.
Key theorems: `Follows.step`, `follows_after`, `agenda_follows_schedule`.
-/
import Keyspace.Expiry.Operation
import Keyspace.Proofs.Expiry.Tracking

namespace Keyspace

/-- When a key is due, and which of all settings this was. -/
structure Plan where
  due : Instant
  order : Nat

/-- Earlier deadlines come first, and of equal ones the earlier setting. -/
def Plan.Before (p q : Plan) : Prop := p.due < q.due ∨ p.due = q.due ∧ p.order < q.order

/-- A plan for each key that has a deadline. -/
structure Schedule where
  plans : Dict Plan
  /-- The number of settings so far. -/
  settings : Nat

namespace Schedule

def empty : Schedule := ⟨∅, 0⟩

/-- What an operation makes of a schedule. -/
def step (m : Schedule) : Agenda.Operation → Schedule
  | .set key due => ⟨m.plans.insert key ⟨due, m.settings + 1⟩, m.settings + 1⟩
  | .clear key => { m with plans := m.plans.erase key }
  | .sweepDue now => { m with plans := m.plans.filter fun _ p => now < p.due }
  | .nextDue | .prune => m

/-- The schedule after a history, oldest operation first. -/
def after (m : Schedule) (ops : List Agenda.Operation) : Schedule := ops.foldl step m

/-- The deadlines of a schedule. -/
def deadlines (m : Schedule) : Deadlines := m.plans.map fun _ p => p.due

/-- The keys that are due, each once, in the order of their plans. -/
structure Reports (m : Schedule) (now : Instant) (keys : List Bytes) : Prop where
  exact : ∀ key, key ∈ keys ↔ ∃ p, m.plans[key]? = some p ∧ p.due ≤ now
  once : keys.Nodup
  ordered : keys.Pairwise fun k l =>
    ∀ p q, m.plans[k]? = some p → m.plans[l]? = some q → p.Before q

/-- What a schedule allows an operation to answer. -/
def Answers (m : Schedule) : Agenda.Operation → Agenda.Result → Prop
  | .set _ _, r | .clear _, r | .prune, r => r = .done
  | .sweepDue now, r => ∃ keys, r = .swept ⟨keys, keys.length⟩ ∧ m.Reports now keys
  | .nextDue, r => ∃ t, r = .due t ∧ m.deadlines.Least t

theorem getElem?_deadlines (m : Schedule) (key : Bytes) :
    m.deadlines[key]? = (m.plans[key]?).map Plan.due := by
  simp [deadlines, Std.ExtTreeMap.getElem?_map]

theorem mem_deadlines_iff {m : Schedule} {key : Bytes} : key ∈ m.deadlines ↔ key ∈ m.plans := by
  simp [deadlines]

theorem deadlines_set (m : Schedule) (key : Bytes) (due : Instant) :
    (m.step (.set key due)).deadlines = m.deadlines.insert key due := by
  refine Std.ExtTreeMap.ext_getElem? fun k => ?_
  simp only [getElem?_deadlines, step, Std.ExtTreeMap.getElem?_insert]
  split <;> simp

theorem deadlines_clear (m : Schedule) (key : Bytes) :
    (m.step (.clear key)).deadlines = m.deadlines.erase key := by
  refine Std.ExtTreeMap.ext_getElem? fun k => ?_
  simp only [getElem?_deadlines, step, Std.ExtTreeMap.getElem?_erase]
  split <;> simp

theorem deadlines_sweepDue (m : Schedule) (now : Instant) :
    (m.step (.sweepDue now)).deadlines = m.deadlines.pending now := by
  refine Std.ExtTreeMap.ext_getElem? fun k => ?_
  simp only [Deadlines.getElem?_pending, Deadlines.isExpired, getElem?_deadlines, step,
    Std.ExtTreeMap.getElem?_filter']
  cases m.plans[k]? with
  | none => rfl
  | some p =>
    by_cases hp : p.due ≤ now
    · simp [Deadline.reached, Option.filter_some, hp]
    · simp [Deadline.reached, Option.filter_some, hp, Nat.not_le.mp hp]

end Schedule

namespace Agenda

/-! ### The agenda shows a schedule -/

/-- The deadline under which the agenda has a current note of the key. -/
def due? (a : Agenda) (key : Bytes) : Option Instant :=
  (a.notes.find? fun n => n.key == key && a.isCurrent n).map Note.due

/-- The agenda has the plans of a schedule and counts them. -/
structure Shows (a : Agenda) (m : Schedule) : Prop where
  tracked : a.tracked = m.plans.size
  due : ∀ key, a.due? key = (m.plans[key]?).map Plan.due

/-- The agenda tracks the deadlines of a schedule, and its generations are in the order of the
settings. -/
structure Follows (a : Agenda) (m : Schedule) : Prop where
  tracks : a.Tracks m.deadlines
  counted : ∀ (key : Bytes) (p : Plan), m.plans[key]? = some p → p.order ≤ m.settings
  ordered : ∀ (k l : Bytes) (p q : Plan) (i j : Nat), m.plans[k]? = some p → m.plans[l]? = some q →
    a.generations[k]? = some i → a.generations[l]? = some j → i < j → p.order < q.order

variable {a : Agenda} {m : Schedule}

theorem Tracks.due?_eq {d : Deadlines} (h : a.Tracks d) (key : Bytes) : a.due? key = d[key]? := by
  unfold due?
  cases hf : a.notes.find? fun n => n.key == key && a.isCurrent n with
  | none =>
    cases hd : d[key]? with
    | none => rfl
    | some t =>
      obtain ⟨g, hc, hm⟩ := h.exists_note hd
      exact absurd hc (by simpa using List.find?_eq_none.mp hf _ hm)
  | some n =>
    have hn := List.find?_some hf
    simp only [Bool.and_eq_true, beq_iff_eq] at hn
    rw [← hn.1, h.due_of_current (List.mem_of_find?_eq_some hf) hn.2]
    rfl

theorem Follows.shows (h : a.Follows m) : a.Shows m where
  tracked := Dict.size_eq_of_mem_iff fun key => (h.tracks.keys key).trans Schedule.mem_deadlines_iff
  due := fun key => (h.tracks.due?_eq key).trans (m.getElem?_deadlines key)

theorem generations_compact (a : Agenda) : a.compact.generations = a.generations := by
  unfold compact
  split <;> rfl

theorem lastGeneration_compact (a : Agenda) : a.compact.lastGeneration = a.lastGeneration := by
  unfold compact
  split <;> rfl

theorem popDue_generations {now : Instant} {key : Bytes} {i : Nat} : ∀ (notes : List Note) (g : Dict Nat),
    (popDue now notes g).2.2[key]? = some i → g[key]? = some i
  | [], _, h => h
  | n :: notes, g, h => by
    by_cases hr : Deadline.reached n.due now = true
    · by_cases hc : g[n.key]? = some n.generation
      · rw [popDue_current hr hc] at h
        exact Dict.getElem?_of_erase (popDue_generations notes _ h)
      · rw [popDue_stale hr hc] at h
        exact popDue_generations notes g h
    · rw [popDue_later (by simpa using hr)] at h
      exact h

/-! ### One operation -/

theorem Follows.set (h : a.Follows m) (key : Bytes) (due : Instant) :
    (a.set key due).Follows (m.step (.set key due)) where
  tracks := m.deadlines_set key due ▸ h.tracks.set key due
  counted := fun k p hp => by
    simp only [Schedule.step, Std.ExtTreeMap.getElem?_insert] at hp ⊢
    split at hp
    · cases hp
      exact Nat.le_refl _
    · exact Nat.le_succ_of_le (h.counted k p hp)
  ordered := fun k l p q i j hp hq hi hj hij => by
    simp only [Agenda.set, generations_compact, Schedule.step] at *
    by_cases hk : k = key
    · -- the key just set has the youngest generation
      rw [hk, Std.ExtTreeMap.getElem?_insert_self, Option.some_inj] at hi
      by_cases hl : l = key
      · rw [hl, Std.ExtTreeMap.getElem?_insert_self, Option.some_inj] at hj
        omega
      · rw [Dict.getElem?_insert_ne hl] at hj hq
        have hd : m.deadlines[l]? = some q.due := by simp [Schedule.getElem?_deadlines, hq]
        have hle : j ≤ a.lastGeneration := h.tracks.fresh _ (h.tracks.noted _ _ _ hd hj)
        omega
    · rw [Dict.getElem?_insert_ne hk] at hi hp
      by_cases hl : l = key
      · rw [hl, Std.ExtTreeMap.getElem?_insert_self, Option.some_inj] at hq
        rw [← hq]
        exact Nat.lt_succ_of_le (h.counted k p hp)
      · rw [Dict.getElem?_insert_ne hl] at hj hq
        exact h.ordered k l p q i j hp hq hi hj hij

/-- Forgetting keys on both sides keeps what is left in step. -/
theorem Follows.restrict (h : a.Follows m) {b : Agenda} {n : Schedule} (ht : b.Tracks n.deadlines)
    (hs : n.settings = m.settings) (hg : ∀ (k : Bytes) (i : Nat), b.generations[k]? = some i → a.generations[k]? = some i)
    (hp : ∀ (k : Bytes) (p : Plan), n.plans[k]? = some p → m.plans[k]? = some p) : b.Follows n where
  tracks := ht
  counted := fun k p h' => hs ▸ h.counted k p (hp k p h')
  ordered := fun k l p q i j h1 h2 h3 h4 =>
    h.ordered k l p q i j (hp k p h1) (hp l q h2) (hg k i h3) (hg l j h4)

theorem Follows.clear (h : a.Follows m) (key : Bytes) :
    (a.clear key).Follows (m.step (.clear key)) := by
  refine h.restrict (m.deadlines_clear key ▸ h.tracks.clear key) rfl (fun k i hi => ?_) fun k p hp => ?_
  · rw [Agenda.clear, generations_compact] at hi
    exact Dict.getElem?_of_erase hi
  · exact Dict.getElem?_of_erase hp

theorem Follows.sweepDue (h : a.Follows m) (now : Instant) :
    (a.sweepDue now).2.Follows (m.step (.sweepDue now)) := by
  refine h.restrict (m.deadlines_sweepDue now ▸ h.tracks.sweepDue now) rfl
    (fun k i hi => popDue_generations _ _ hi) fun k p hp => ?_
  rw [Schedule.step, Std.ExtTreeMap.getElem?_filter'] at hp
  exact (Option.filter_eq_some_iff.mp hp).1

theorem Follows.prune (h : a.Follows m) : a.prune.Follows m :=
  h.restrict h.tracks.prune rfl (fun _ _ hi => hi) fun _ _ hp => hp

theorem Follows.reports (h : a.Follows m) (now : Instant) : m.Reports now (a.sweepDue now).1.keys := by
  have hexact : ∀ key, key ∈ (a.sweepDue now).1.keys ↔ ∃ p, m.plans[key]? = some p ∧ p.due ≤ now := by
    intro key
    rw [h.tracks.mem_sweepDue now, Deadlines.isExpired_iff, m.getElem?_deadlines]
    simp [Option.map_eq_some_iff]
  have hord : (a.sweepDue now).1.keys.Pairwise fun k l =>
      ∀ p q, m.plans[k]? = some p → m.plans[l]? = some q → p.Before q := by
    refine (h.tracks.sweepDue_ordered now).imp fun {k l} hkl p q hp hq => ?_
    have hdp : m.deadlines[k]? = some p.due := by simp [Schedule.getElem?_deadlines, hp]
    have hdq : m.deadlines[l]? = some q.due := by simp [Schedule.getElem?_deadlines, hq]
    obtain ⟨i, hi⟩ := h.tracks.exists_generation hdp
    obtain ⟨j, hj⟩ := h.tracks.exists_generation hdq
    rcases hkl p.due q.due i j hdp hdq hi hj with hlt | ⟨heq, hij⟩
    · exact .inl hlt
    · exact .inr ⟨heq, h.ordered k l p q i j hp hq hi hj hij⟩
  refine ⟨hexact, hord.imp_of_mem fun {k l} hk _ hkl hne => ?_, hord⟩
  -- a key reported twice would come before itself
  obtain ⟨p, hp, -⟩ := (hexact k).mp hk
  rcases hkl p p hp (hne ▸ hp) with hlt | ⟨-, hlt⟩
  · exact Nat.lt_irrefl _ hlt
  · exact Nat.lt_irrefl _ hlt

/-- Whatever the operation, the agenda answers as its schedule does and follows it on. -/
theorem Follows.step (h : a.Follows m) (op : Operation) :
    m.Answers op (op.run a).1 ∧ (op.run a).2.Follows (m.step op) := by
  cases op with
  | set key due => exact ⟨rfl, h.set key due⟩
  | clear key => exact ⟨rfl, h.clear key⟩
  | sweepDue now =>
    have hcount : (a.sweepDue now).1.count = (a.sweepDue now).1.keys.length := popDue_count now _ _
    exact ⟨⟨_, by rw [← hcount]; rfl, h.reports now⟩, h.sweepDue now⟩
  | nextDue => exact ⟨⟨_, rfl, h.tracks.nextDue_least⟩, h.prune⟩
  | prune => exact ⟨rfl, h.prune⟩

/-! ### Histories -/

theorem follows_empty : empty.Follows .empty where
  tracks := by
    have : Schedule.empty.deadlines = ∅ := Std.ExtTreeMap.ext_getElem? fun k => by
      simp [Schedule.getElem?_deadlines, Schedule.empty]
    exact this ▸ tracks_empty
  counted := by simp [Schedule.empty]
  ordered := by simp [Schedule.empty]

theorem follows_after : ∀ (ops : List Operation) {a : Agenda} {m : Schedule}, a.Follows m →
    (a.after ops).Follows (m.after ops)
  | [], _, _, h => h
  | op :: ops, _, _, h => follows_after ops (h.step op).2

theorem lastGeneration_run (a : Agenda) (op : Operation) :
    (op.run a).2.lastGeneration = a.lastGeneration + if op.takesGeneration then 1 else 0 := by
  cases op with
  | set key due => exact lastGeneration_compact _
  | clear key => exact lastGeneration_compact _
  | _ => rfl

/-- Generations are counted without bound. The last one is the number of operations that took one, so
a machine word holds it for as long as those are fewer than the word has values. -/
theorem lastGeneration_after : ∀ (ops : List Operation) (a : Agenda),
    (a.after ops).lastGeneration = a.lastGeneration + ops.countP Operation.takesGeneration
  | [], _ => rfl
  | op :: ops, a => by
    rw [show a.after (op :: ops) = (op.run a).2.after ops from rfl, lastGeneration_after ops,
      lastGeneration_run, List.countP_cons]
    omega

/-- **An agenda is a plain schedule.** After every history it shows the schedule of that history;
every operation then answers as the schedule does, and leaves an agenda that shows the schedule
changed accordingly. -/
theorem agenda_follows_schedule (ops : List Operation) (op : Operation) :
    (empty.after ops).Shows (Schedule.empty.after ops) ∧
    (Schedule.empty.after ops).Answers op (op.run (empty.after ops)).1 ∧
    (op.run (empty.after ops)).2.Shows ((Schedule.empty.after ops).step op) ∧
    (empty.after ops).lastGeneration = ops.countP Operation.takesGeneration := by
  have h := follows_after ops follows_empty
  obtain ⟨hanswer, hnext⟩ := h.step op
  refine ⟨h.shows, hanswer, hnext.shows, ?_⟩
  rw [lastGeneration_after]
  exact Nat.zero_add _

end Agenda
end Keyspace
