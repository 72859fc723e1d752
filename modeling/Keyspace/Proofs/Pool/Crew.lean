/-
# What every run of the workers comes to

As the client waits for the replies to a batch before it submits the next one, there is never more than one
job about: it is in the queue, with some worker, or its replies are on their way. In each of these
situations it is settled what the client will have received in the end, and in which state the requests
leave what they are carried out on (`Due`), and no step changes that (`Due.step`), whichever worker takes
the job. As long as the client is not done some step is possible (`Due.progress`), provided there is a worker
at all; and no run goes on for ever (`step_toDo_lt`).

Key definitions: `Crew.Due`, `Crew.toDo`, `Crew.Reaches`.
Key theorems: `Due.step`, `Due.progress`, `step_toDo_lt`, `exists_finished`.
-/
import Mathlib.Algebra.Ring.Nat
import Mathlib.Logic.Relation
import Keyspace.Crew

namespace Keyspace
namespace Crew

variable {σ : Type} {exec : Executor σ} {size : Nat} {c d : Crew σ} {out : List (List Value) × σ}

/-! ### One job at most -/

/-- All workers are idle. -/
def idle (size : Nat) : List (Option Job) := List.replicate size none

/-- One worker has a job. -/
def busy (size i : Nat) (job : Job) : List (Option Job) := (idle size).set i (some job)

theorem not_mem_idle {i : Nat} {job : Job} : (idle size)[i]? ≠ some (some job) := by
  intro h
  simp [idle, List.getElem?_replicate] at h

theorem idle_set (i : Nat) : (idle size).set i none = idle size := by
  refine List.ext_getElem? fun j => ?_
  rw [List.getElem?_set]
  split
  · next hij =>
    subst hij
    simp [idle, List.getElem?_replicate]
  · rfl

theorem busy_set (i : Nat) (job : Job) (w : Option Job) :
    (busy size i job).set i w = (idle size).set i w :=
  List.set_set ..

theorem busy_self {i : Nat} (hi : i < size) (job : Job) : (busy size i job)[i]? = some (some job) :=
  List.getElem?_set_self (by simpa [idle] using hi)

/-- Only the one worker is found at work, and on its job. -/
theorem eq_of_busy {i j : Nat} {job job' : Job} (h : (busy size i job)[j]? = some (some job')) :
    i = j ∧ job = job' := by
  rw [busy, List.getElem?_set] at h
  split at h
  · next hij =>
    split at h
    · exact ⟨hij, by simpa using h⟩
    · cases h
  · exact absurd h not_mem_idle

/-- What the client will have received when it is done, and the state then. -/
inductive Due (exec : Executor σ) (size : Nat) : Crew σ → List (List Value) × σ → Prop where
  | resting (state : σ) (batches : List (List (List Bytes))) (received : List (List Value)) :
      Due exec size ⟨state, batches, none, [], idle size, [], received⟩
        ((Pool.runBatches exec batches state).map (received ++ ·) id)
  | waiting (state : σ) (batch : List (List Bytes)) (batches : List (List (List Bytes))) (ticket : Nat)
      (received : List (List Value)) :
      Due exec size ⟨state, batches, some ticket, [⟨ticket, batch, []⟩], idle size, [], received⟩
        ((Pool.runBatches exec (batch :: batches) state).map (received ++ ·) id)
  | working (state : σ) (batches : List (List (List Bytes))) (i : Nat) (job : Job)
      (received : List (List Value)) : i < size →
      Due exec size ⟨state, batches, some job.ticket, [], busy size i job, [], received⟩
        ((Pool.runBatches exec batches (exec.runAll job.requests state).2).map
          (fun vss => received ++ (job.replies ++ (exec.runAll job.requests state).1) :: vss) id)
  | answered (state : σ) (batches : List (List (List Bytes))) (ticket : Nat) (replies : List Value)
      (received : List (List Value)) :
      Due exec size ⟨state, batches, some ticket, [], idle size, [(ticket, replies)], received⟩
        ((Pool.runBatches exec batches state).map (fun vss => received ++ replies :: vss) id)

theorem due_start (exec : Executor σ) (p : Pool) (batches : List (List (List Bytes))) (state : σ) :
    Due exec p.size (start p batches state) (Pool.runBatches exec batches state) :=
  Due.resting state batches []

/-- No step changes what is due. -/
theorem Due.step (h : Due exec size c out) (hs : Step exec c d) : Due exec size d out := by
  cases h with
  | resting state batches received =>
    cases hs with
    | submit _ hbatches =>
      cases hbatches
      exact Due.waiting ..
    | take _ hqueue => cases hqueue
    | perform hwork => exact absurd hwork not_mem_idle
    | send hwork => exact absurd hwork not_mem_idle
    | receive hawaited => cases hawaited
  | waiting state batch batches ticket received =>
    cases hs with
    | submit hawaited => cases hawaited
    | @take i job queue hidle hqueue =>
      obtain ⟨rfl, rfl⟩ := List.cons.inj hqueue
      have hi : i < size := by simpa [idle] using (List.getElem?_eq_some_iff.1 hidle).1
      exact Due.working state batches i ⟨ticket, batch, []⟩ received hi
    | perform hwork => exact absurd hwork not_mem_idle
    | send hwork => exact absurd hwork not_mem_idle
    | receive _ hsent => cases hsent
  | working state batches i job received hi =>
    cases hs with
    | submit hawaited => cases hawaited
    | take _ hqueue => cases hqueue
    | @perform j ticket args requests replies hwork =>
      obtain ⟨rfl, rfl⟩ := eq_of_busy hwork
      have hdue : Due exec size _ _ := Due.working (exec.answer args state).2 batches i
        ⟨ticket, requests, replies ++ [(exec.answer args state).1]⟩ received hi
      simpa [Executor.runAll, busy_set, busy] using hdue
    | @send j ticket replies hwork =>
      obtain ⟨rfl, rfl⟩ := eq_of_busy hwork
      have hdue : Due exec size _ _ := Due.answered state batches ticket replies received
      simpa [Executor.runAll, busy_set, idle_set] using hdue
    | receive _ hsent => cases hsent
  | answered state batches ticket replies received =>
    cases hs with
    | submit hawaited => cases hawaited
    | take _ hqueue => cases hqueue
    | perform hwork => exact absurd hwork not_mem_idle
    | send hwork => exact absurd hwork not_mem_idle
    | @receive _ replies' hawaited hsent =>
      cases hawaited
      obtain rfl : replies' = replies := (Prod.ext_iff.1 (List.mem_singleton.1 hsent)).2
      have hdue : Due exec size _ _ := Due.resting state batches (received ++ [replies'])
      simpa using hdue

/-- The client of a crew with any worker at all is done, or something may happen. -/
theorem Due.progress (h : Due exec size c out) (hsize : 0 < size) :
    c.Finished ∨ ∃ d, Step exec c d := by
  cases h with
  | resting state batches received =>
    cases batches with
    | nil => exact .inl ⟨rfl, rfl⟩
    | cons batch batches => exact .inr ⟨_, Step.submit rfl rfl⟩
  | waiting state batch batches ticket received =>
    have hidle : (idle size)[0]? = some none := by simp [idle, hsize]
    exact .inr ⟨_, Step.take hidle rfl⟩
  | working state batches i job received hi =>
    obtain ⟨ticket, requests, replies⟩ := job
    cases requests with
    | nil => exact .inr ⟨_, Step.send (busy_self hi _)⟩
    | cons args requests => exact .inr ⟨_, Step.perform (busy_self hi _)⟩
  | answered state batches ticket replies received =>
    exact .inr ⟨_, Step.receive rfl (List.mem_singleton.2 rfl)⟩

/-- Once the client is done it has what was due, and nothing is left in the queue or with a worker. -/
theorem Due.finished (h : Due exec size c out) (hc : c.Finished) :
    (c.received, c.state) = out ∧ c.queue = [] ∧ c.workers = idle size := by
  obtain ⟨hbatches, hawaited⟩ := hc
  cases h with
  | resting state batches received =>
    cases hbatches
    exact ⟨by simp [Pool.runBatches], rfl, rfl⟩
  | waiting => cases hawaited
  | working => cases hawaited
  | answered => cases hawaited

/-! ### No run goes on for ever -/

/-- The steps that a worker has to take with its job, and the client after it. -/
def workLeft : Option Job → Nat
  | none => 0
  | some job => job.requests.length + 2

/-- A bound for the steps that are still possible. -/
def toDo (c : Crew σ) : Nat :=
  (c.batches.map (·.length + 4)).sum + (c.queue.map (·.requests.length + 3)).sum +
    (c.workers.map workLeft).sum + c.sent.length

/-- Where one entry is replaced, its share of the sum is. -/
theorem sum_map_set {α : Type} (f : α → Nat) {xs : List α} {i : Nat} {x y : α} (h : xs[i]? = some x) :
    ((xs.set i y).map f).sum + f x = (xs.map f).sum + f y := by
  induction xs generalizing i with
  | nil => cases h
  | cons z xs ih =>
    cases i with
    | zero =>
      cases h
      simp only [List.set_cons_zero, List.map_cons, List.sum_cons]
      omega
    | succ i =>
      have := ih h
      simp only [List.set_cons_succ, List.map_cons, List.sum_cons]
      omega

theorem step_toDo_lt (hs : Step exec c d) : d.toDo < c.toDo := by
  cases hs with
  | submit _ hbatches =>
    simp only [toDo, hbatches, List.map_append, List.map_cons, List.map_nil, List.sum_append,
      List.sum_cons, List.sum_nil]
    omega
  | @take i job queue hidle hqueue =>
    have := sum_map_set workLeft (y := some job) hidle
    simp only [toDo, hqueue, List.map_cons, List.sum_cons, workLeft] at this ⊢
    omega
  | @perform i ticket args requests replies hwork =>
    have := sum_map_set workLeft
      (y := some ⟨ticket, requests, replies ++ [(exec.answer args c.state).1]⟩) hwork
    simp only [toDo, workLeft, List.length_cons] at this ⊢
    omega
  | @send i ticket replies hwork =>
    have := sum_map_set workLeft (y := none) hwork
    simp only [toDo, workLeft, List.length_append, List.length_cons, List.length_nil] at this ⊢
    omega
  | @receive ticket replies _ hsent =>
    have : (c.sent.filter (·.1 != ticket)).length < c.sent.length :=
      List.length_filter_lt_length_iff_exists.2 ⟨_, hsent, by simp⟩
    simp only [toDo]
    omega

/-- A run that goes on at each of the first `n` steps has used up `n` of what there was to do. -/
theorem toDo_run {run : Nat → Crew σ} (h : ∀ n, Step exec (run n) (run (n + 1))) (n : Nat) :
    (run n).toDo + n ≤ (run 0).toDo := by
  induction n with
  | zero => exact Nat.le_refl _
  | succ n ih =>
    have := step_toDo_lt (h n)
    omega

theorem no_endless_run (exec : Executor σ) (run : Nat → Crew σ) :
    ∃ n, ¬ Step exec (run n) (run (n + 1)) := by
  apply Classical.byContradiction
  intro h
  have hrun : ∀ n, Step exec (run n) (run (n + 1)) := by simpa using h
  have := toDo_run hrun ((run 0).toDo + 1)
  omega

/-! ### Whole runs -/

/-- The second situation comes after the first, any number of steps later. -/
abbrev Reaches (exec : Executor σ) : Crew σ → Crew σ → Prop := Relation.ReflTransGen (Step exec)

theorem Due.reaches (h : Due exec size c out) (hr : Reaches exec c d) : Due exec size d out := by
  induction hr with
  | refl => exact h
  | tail _ hs ih => exact ih.step hs

/-- A crew with any worker at all can always go on until the client is done. -/
theorem Due.exists_finished (hsize : 0 < size) (h : Due exec size c out) :
    ∃ d, Reaches exec c d ∧ d.Finished := by
  induction hn : c.toDo using Nat.strongRecOn generalizing c with
  | ind n ih =>
    obtain hc | ⟨d, hs⟩ := h.progress hsize
    · exact ⟨c, .refl, hc⟩
    · obtain ⟨e, hr, he⟩ := ih d.toDo (hn ▸ step_toDo_lt hs) (h.step hs) rfl
      exact ⟨e, hr.head hs, he⟩

end Crew
end Keyspace
