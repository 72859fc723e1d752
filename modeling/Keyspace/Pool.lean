/-
# The pool of workers

Requests are carried out in batches by a pool of workers. An `Executor` answers a request and changes
a state; it may also crash, having changed the state, and the request is then answered with a server
error. A batch runs in order on one worker, and a crash costs no other request its reply.

Key definitions: `Executor.runAll` answers the requests of a batch; `Pool.submit` puts a batch in the
queue and `Pool.work` lets the workers take the queue down; `Pool.serve` submits batches one after
another, each once the one before is answered.
-/
import Keyspace.Command.Execute

namespace Keyspace

/-- Answers a request and changes the state; nothing is answered in a crash. -/
abbrev Executor (σ : Type) := List Bytes → σ → Option Value × σ

namespace Executor

/-- Carries out requests on a store, at a given instant. -/
def ofStore (now : Instant) : Executor Store := fun args s =>
  let (v, s) := execute now s args
  (some v, s)

variable {σ : Type}

/-- Answers a request, also in a crash. -/
def answer (exec : Executor σ) (args : List Bytes) (state : σ) : Value × σ :=
  (exec args state).map (fun v => v.getD CommandError.notExecuted.toValue) id

/-- Answers requests in order. -/
def runAll (exec : Executor σ) : List (List Bytes) → σ → List Value × σ
  | [], state => ([], state)
  | args :: requests, state =>
    let (v, state) := exec.answer args state
    let (vs, state) := exec.runAll requests state
    (v :: vs, state)

theorem length_runAll (exec : Executor σ) (requests : List (List Bytes)) (state : σ) :
    (exec.runAll requests state).1.length = requests.length := by
  induction requests generalizing state with
  | nil => rfl
  | cons args requests ih => simp [runAll, ih]

theorem runAll_append (exec : Executor σ) (as bs : List (List Bytes)) (state : σ) :
    exec.runAll (as ++ bs) state =
      ((exec.runAll as state).1 ++ (exec.runAll bs (exec.runAll as state).2).1,
        (exec.runAll bs (exec.runAll as state).2).2) := by
  induction as generalizing state with
  | nil => rfl
  | cons args as ih => simp [runAll, ih]

end Executor

/-- Some workers, at least one, and the batches that wait for one of them. -/
structure Pool where
  size : Nat
  size_pos : 0 < size
  /-- Oldest first. -/
  waiting : List (List (List Bytes))

namespace Pool
variable {σ : Type}

/-- An idle pool of `size` workers, at least one. -/
def ofSize (size : Nat) : Pool := ⟨max size 1, by omega, []⟩

/-- The number of batches that wait. -/
def queued (p : Pool) : Nat := p.waiting.length

/-- Puts a batch at the end of the queue. -/
def submit (p : Pool) (batch : List (List Bytes)) : Pool := { p with waiting := p.waiting ++ [batch] }

/-- Answers batches in order. -/
def runBatches (exec : Executor σ) : List (List (List Bytes)) → σ → List (List Value) × σ
  | [], state => ([], state)
  | batch :: batches, state =>
    let (vs, state) := exec.runAll batch state
    let (vss, state) := runBatches exec batches state
    (vs :: vss, state)

/-- Lets the workers answer all that waits. -/
def work (p : Pool) (exec : Executor σ) (state : σ) : List (List Value) × Pool × σ :=
  let (vss, state) := runBatches exec p.waiting state
  (vss, { p with waiting := [] }, state)

/-- Submits batches one after another, each once the one before is answered. -/
def serve (p : Pool) (exec : Executor σ) :
    List (List (List Bytes)) → σ → List (List Value) × Pool × σ
  | [], state => ([], p, state)
  | batch :: batches, state =>
    let (vss, p, state) := (p.submit batch).work exec state
    let (rest, p, state) := p.serve exec batches state
    (vss ++ rest, p, state)

end Pool
end Keyspace
