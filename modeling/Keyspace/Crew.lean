/-
# The workers of a pool

The workers of a pool share one queue and work at the same time. A worker that is idle takes the oldest
job off the queue, carries out its requests one after another, and sends the replies over the channel that
came with the job. The client submits a batch once it has the replies to the one before.

Nothing says which of several idle workers takes a job, nor who goes on first. So this is a relation:
`Crew.Step` holds of every pair of situations where the second may follow the first. `Pool.serve` computes
what every run comes to.

Key definitions: `Job`, `Crew`, `Crew.Step`, `Crew.Finished`.
-/
import Keyspace.Pool

namespace Keyspace

/-- A batch at work. -/
structure Job where
  /-- Names the channel for the replies. -/
  ticket : Nat
  /-- What is to be carried out. -/
  requests : List (List Bytes)
  /-- The replies so far. -/
  replies : List Value

/-- Workers, and a client that has batches for them. -/
structure Crew (σ : Type) where
  /-- What the requests are carried out on. -/
  state : σ
  /-- Batches that are not yet submitted. -/
  batches : List (List (List Bytes))
  /-- The channel on which the client waits. -/
  awaited : Option Nat
  /-- Jobs that wait for a worker, oldest first. -/
  queue : List Job
  /-- The job of each worker; an idle one has none. -/
  workers : List (Option Job)
  /-- Replies on their way to the client, with their channels. -/
  sent : List (Nat × List Value)
  /-- Replies that the client has, batch by batch. -/
  received : List (List Value)

namespace Crew
variable {σ : Type}

/-- The workers of a pool, all idle, before the first batch. -/
def start (p : Pool) (batches : List (List (List Bytes))) (state : σ) : Crew σ where
  state
  batches
  awaited := none
  queue := []
  workers := List.replicate p.size none
  sent := []
  received := []

/-- The client has the replies to all its batches. -/
def Finished (c : Crew σ) : Prop := c.batches = [] ∧ c.awaited = none

/-- What may happen next. -/
inductive Step (exec : Executor σ) (c : Crew σ) : Crew σ → Prop where
  /-- The client submits a batch and waits on a new channel. -/
  | submit {batch : List (List Bytes)} {batches : List (List (List Bytes))} :
      c.awaited = none → c.batches = batch :: batches →
      Step exec c { c with
        batches
        awaited := some c.received.length
        queue := c.queue ++ [⟨c.received.length, batch, []⟩] }
  /-- An idle worker takes the oldest job. -/
  | take {i : Nat} {job : Job} {queue : List Job} :
      c.workers[i]? = some none → c.queue = job :: queue →
      Step exec c { c with queue, workers := c.workers.set i (some job) }
  /-- A worker carries out the next request of its job, also if that crashes. -/
  | perform {i ticket : Nat} {args : List Bytes} {requests : List (List Bytes)} {replies : List Value} :
      c.workers[i]? = some (some ⟨ticket, args :: requests, replies⟩) →
      Step exec c { c with
        state := (exec.answer args c.state).2
        workers := c.workers.set i (some ⟨ticket, requests, replies ++ [(exec.answer args c.state).1]⟩) }
  /-- A worker that has carried out its job sends the replies. -/
  | send {i ticket : Nat} {replies : List Value} :
      c.workers[i]? = some (some ⟨ticket, [], replies⟩) →
      Step exec c { c with workers := c.workers.set i none, sent := c.sent ++ [(ticket, replies)] }
  /-- The client gets the replies on which it waits. -/
  | receive {ticket : Nat} {replies : List Value} :
      c.awaited = some ticket → (ticket, replies) ∈ c.sent →
      Step exec c { c with
        awaited := none
        sent := c.sent.filter (·.1 != ticket)
        received := c.received ++ [replies] }

end Crew
end Keyspace
