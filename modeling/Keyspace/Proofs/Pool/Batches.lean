/-
# Batches are answered in order

A request is answered in the state that all requests before it leave, those of earlier batches included, and
it leaves the state that the executor leaves, also in a crash (`Executor.after`). How the requests are grouped
into batches does not show in the replies or in the state (`flatten_runBatches`, `runBatches_state`), and how
many workers there are shows nowhere. This is so however the workers take turns, as each run of them comes to
the same end.

Key definition: `Executor.after`.
Key theorems: `getElem?_runAll`, `getElem?_runBatches`, `batches_answered_in_order`.
-/
import Keyspace.Proofs.Pool.Crew

namespace Keyspace
namespace Executor

variable {σ : Type} (exec : Executor σ)

/-- The state that requests leave, crashed or not. -/
def after (requests : List (List Bytes)) (state : σ) : σ :=
  requests.foldl (fun state args => (exec args state).2) state

theorem after_append (as bs : List (List Bytes)) (state : σ) :
    exec.after (as ++ bs) state = exec.after bs (exec.after as state) :=
  List.foldl_append ..

theorem runAll_state (requests : List (List Bytes)) (state : σ) :
    (exec.runAll requests state).2 = exec.after requests state := by
  induction requests generalizing state with
  | nil => rfl
  | cons args requests ih => exact ih _

/-- A reply is the answer to its request in the state that the requests before it leave. -/
theorem getElem?_runAll (requests : List (List Bytes)) (state : σ) (j : Nat) :
    (exec.runAll requests state).1[j]? =
      requests[j]?.map fun args => (exec.answer args (exec.after (requests.take j) state)).1 := by
  induction requests generalizing state j with
  | nil => rfl
  | cons args requests ih =>
    cases j with
    | zero => rfl
    | succ j => exact ih (exec.answer args state).2 j

end Executor

namespace Pool

variable {σ : Type} (exec : Executor σ)

theorem runBatches_state (batches : List (List (List Bytes))) (state : σ) :
    (runBatches exec batches state).2 = exec.after batches.flatten state := by
  induction batches generalizing state with
  | nil => rfl
  | cons batch batches ih => rw [runBatches, ih, exec.runAll_state, List.flatten_cons, exec.after_append]

theorem flatten_runBatches (batches : List (List (List Bytes))) (state : σ) :
    (runBatches exec batches state).1.flatten = (exec.runAll batches.flatten state).1 := by
  induction batches generalizing state with
  | nil => rfl
  | cons batch batches ih =>
    rw [runBatches, List.flatten_cons, List.flatten_cons, exec.runAll_append, ih]

/-- A batch is answered in the state that the batches before it leave. -/
theorem getElem?_runBatches (batches : List (List (List Bytes))) (state : σ) (i : Nat) :
    (runBatches exec batches state).1[i]? =
      batches[i]?.map fun batch => (exec.runAll batch (exec.after (batches.take i).flatten state)).1 := by
  induction batches generalizing state i with
  | nil => rfl
  | cons batch batches ih =>
    cases i with
    | zero => rfl
    | succ i =>
      rw [List.take_succ_cons, List.flatten_cons, exec.after_append, ← exec.runAll_state batch]
      exact ih _ i

/-- A pool in which nothing waits answers batches one by one, and then nothing waits again. -/
theorem serve_of_waiting_nil {p : Pool} (h : p.waiting = []) (batches : List (List (List Bytes))) (state : σ) :
    p.serve exec batches state = ((runBatches exec batches state).1, p, (runBatches exec batches state).2) := by
  obtain ⟨size, hsize, waiting⟩ := p
  cases h
  induction batches generalizing state with
  | nil => rfl
  | cons batch batches ih => simp [serve, work, submit, runBatches, ih]

/-- **Batches are answered in order.** The replies to a batch are as many as its requests. Each is the
executor's answer in the state that all requests before leave, those of earlier batches included, or a
server error exactly where the executor crashes; a crash changes nothing else. Neither the number of workers
nor the grouping into batches shows. However the workers take turns, no run goes on for ever, none gets
stuck, and each comes to these replies and this state, with nothing in the queue. -/
theorem batches_answered_in_order (size : Nat) (batches : List (List (List Bytes))) (state : σ) :
    let served := (ofSize size).serve exec batches state
    served.1.map List.length = batches.map List.length ∧
    (∀ i batch, batches[i]? = some batch → ∀ j args, batch[j]? = some args →
      ∃ replies, served.1[i]? = some replies ∧
        replies[j]? = some (match (exec args
            (exec.after ((batches.take i).flatten ++ batch.take j) state)).1 with
          | some v => v
          | none => .error "ERR server error")) ∧
    served.2.2 = exec.after batches.flatten state ∧
    served.2.1.size = max size 1 ∧ served.2.1.queued = 0 ∧
    (∀ size' batches', batches'.flatten = batches.flatten →
      ((ofSize size').serve exec batches' state).1.flatten = served.1.flatten ∧
      ((ofSize size').serve exec batches' state).2.2 = served.2.2) ∧
    (∀ run : Nat → Crew σ, ∃ n, ¬ Crew.Step exec (run n) (run (n + 1))) ∧
    ∀ c, Crew.Reaches exec (Crew.start (ofSize size) batches state) c →
      (∃ d, Crew.Reaches exec c d ∧ d.Finished) ∧
      (c.Finished → c.received = served.1 ∧ c.state = served.2.2 ∧ c.queue = []) := by
  simp only [serve_of_waiting_nil exec (p := ofSize _) rfl]
  refine ⟨?_, ?_, runBatches_state .., rfl, rfl, ?_, Crew.no_endless_run exec, ?_⟩
  · refine List.ext_getElem? fun i => ?_
    simp only [List.getElem?_map, getElem?_runBatches, Option.map_map]
    exact congrArg (batches[i]?.map ·) (funext fun batch => exec.length_runAll ..)
  · intro i batch hbatch j args hargs
    refine ⟨_, by rw [getElem?_runBatches, hbatch]; rfl, ?_⟩
    rw [exec.getElem?_runAll, hargs, exec.after_append, Option.map_some]
    unfold Executor.answer
    rcases exec args _ with ⟨_ | v, state⟩ <;> rfl
  · intro size' batches' h
    exact ⟨by rw [flatten_runBatches, flatten_runBatches, h],
      by rw [runBatches_state, runBatches_state, h]⟩
  · intro c hc
    have hdue := (Crew.due_start exec (ofSize size) batches state).reaches hc
    refine ⟨hdue.exists_finished (ofSize size).size_pos, fun hfinished => ?_⟩
    obtain ⟨hout, hqueue, -⟩ := hdue.finished hfinished
    exact ⟨congrArg Prod.fst hout, congrArg Prod.snd hout, hqueue⟩

end Pool
end Keyspace
