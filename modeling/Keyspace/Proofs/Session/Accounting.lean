/-
# What sessions count

The reader counts the octets of its reads; the dispatcher counts requests before their replies are written and
octets after. It stops in the middle when a write fails, and so counts no more requests than it was handed,
and exactly these if none failed (`Desk.Accounts`). It counts the octets that it writes (`Desk.Writes`). Neither
touches what the other counts, nor the count of sessions.

The counters are numbers without bound. What sessions add to them at most is what they handled (`Session.load`), so
that says when a machine word holds a counter (`Session.stats_serverAfter`).

Key definitions: `Desk.Accounts`, `Session.Balanced`, `Session.load`.
Key theorems: `Desk.accounts_dispatchAll`, `Session.balanced_run`, `Session.sessions_balanced`.
-/
import Mathlib.Algebra.Ring.Nat
import Keyspace.Proofs.Session.Delivery

namespace Keyspace

/-- The requests among the entries. Replies to what was no request are no requests. -/
def Entry.requests (entries : List Entry) : List (List Bytes) :=
  entries.filterMap fun
    | .ready _ => none
    | .request args => some args

theorem Entry.requests_append (as bs : List Entry) : requests (as ++ bs) = requests as ++ requests bs :=
  List.filterMap_append

/-! ### What the dispatcher counts -/

namespace Desk
variable {σ ω : Type} {d e f : Desk σ ω} {n m : Nat}

/-- From `d` to `e` the dispatcher was handed `n` requests, and it counted those that it came to. -/
structure Accounts (d : Desk σ ω) (n : Nat) (e : Desk σ ω) : Prop where
  accepted : e.stats.accepted = d.stats.accepted
  active : e.stats.active = d.stats.active
  read : e.stats.read = d.stats.read
  commands_le : e.stats.commands ≤ d.stats.commands + n
  commands : e.gone = false → e.stats.commands = d.stats.commands + n
  gone : d.gone = true → e = d

/-- Nothing changes but the octets written, the state and the outlet. -/
theorem accounts_nothing (hstats : e.stats = { d.stats with written := e.stats.written })
    (hgone : d.gone = true → e = d) : d.Accounts 0 e where
  accepted := by rw [hstats]
  active := by rw [hstats]
  read := by rw [hstats]
  commands_le := Nat.le_of_eq (by rw [hstats, Nat.add_zero])
  commands := fun _ => by rw [hstats, Nat.add_zero]
  gone := hgone

theorem accounts_refl (d : Desk σ ω) : d.Accounts 0 d := accounts_nothing rfl fun _ => rfl

theorem Accounts.trans (h : d.Accounts n e) (h' : e.Accounts m f) : d.Accounts (n + m) f where
  accepted := h'.accepted.trans h.accepted
  active := h'.active.trans h.active
  read := h'.read.trans h.read
  commands_le := by
    have := h.commands_le
    have := h'.commands_le
    omega
  commands := fun hf => by
    cases he : e.gone with
    | false => rw [h'.commands hf, h.commands he, Nat.add_assoc]
    | true =>
      rw [h'.gone he, he] at hf
      cases hf
  gone := fun hd => by
    obtain rfl := h.gone hd
    exact h'.gone hd

/-- After a failed write nothing is counted. -/
theorem accounts_gone (hd : d.gone = true) (n : Nat) : d.Accounts n d where
  accepted := rfl
  active := rfl
  read := rfl
  commands_le := Nat.le_add_right _ _
  commands := fun h => by simp [hd] at h
  gone := fun _ => rfl

variable [Outlet ω]

theorem accounts_flush (d : Desk σ ω) : d.Accounts 0 d.flush := by
  unfold flush
  split
  · exact accounts_refl d
  · next hd => exact accounts_nothing rfl fun h => absurd h hd

theorem accounts_send (d : Desk σ ω) (reply : Value) : d.Accounts 0 (d.send reply) := by
  unfold send
  split
  · exact accounts_refl d
  · next hd =>
    dsimp only
    split
    · exact accounts_nothing rfl fun h => absurd h hd
    · exact accounts_nothing rfl fun h => absurd h hd

/-- A request is counted before its reply is written. -/
theorem accounts_sendAnswer (d : Desk σ ω) (reply : Value) : d.Accounts 1 (d.sendAnswer reply) := by
  unfold sendAnswer
  split
  · next hd => exact accounts_gone hd 1
  · next hd =>
    have hcounted : d.Accounts 1 d.countCommand :=
      ⟨rfl, rfl, rfl, Nat.le_refl _, fun _ => rfl, fun h => absurd h hd⟩
    exact hcounted.trans (accounts_send d.countCommand reply)

theorem accounts_sendAnswers : ∀ (replies : List Value) (d : Desk σ ω),
    d.Accounts replies.length (replies.foldl sendAnswer d)
  | [], d => accounts_refl d
  | reply :: replies, d => by
    have hall := (accounts_sendAnswer d reply).trans (accounts_sendAnswers replies (d.sendAnswer reply))
    rwa [Nat.add_comm] at hall

theorem accounts_runBatch (exec : Executor σ) (d : Desk σ ω) (batch : List (List Bytes)) :
    d.Accounts batch.length (d.runBatch exec batch) := by
  unfold runBatch
  split
  · next hd => exact accounts_gone hd _
  · next hd =>
    have hcarried : d.Accounts 0 { d with state := (exec.runAll batch d.state).2 } :=
      accounts_nothing rfl fun h => absurd h hd
    have hall := hcarried.trans (accounts_sendAnswers (exec.runAll batch d.state).1 _)
    rwa [Nat.zero_add, exec.length_runAll] at hall

/-- The moves laid down for the entries in the queue count these entries, and those that were gathered
before. -/
theorem accounts_plan (exec : Executor σ) : ∀ (entries : List Entry) (batch : List (List Bytes)) (d : Desk σ ω),
    d.Accounts (batch.length + (Entry.requests entries).length)
      ((Move.plan batch entries).foldl (perform exec) d)
  | [], batch, d => (accounts_runBatch exec d batch).trans (accounts_flush _)
  | .ready reply :: entries, batch, d => by
    have hrest := accounts_plan exec entries [] ((d.runBatch exec batch).send reply)
    have hall := (accounts_runBatch exec d batch).trans ((accounts_send _ reply).trans hrest)
    simpa [Entry.requests, Move.plan, perform] using hall
  | .request args :: entries, batch, d => by
    have hsame : batch.length + (Entry.requests (.request args :: entries)).length =
        (batch ++ [args]).length + (Entry.requests entries).length := by
      simp only [Entry.requests, List.filterMap_cons, List.length_append, List.length_cons, List.length_nil]
      omega
    rw [hsame, Move.plan]
    split
    · exact accounts_plan exec entries (batch ++ [args]) d
    · have hrun := (accounts_runBatch exec d (batch ++ [args])).trans (accounts_flush _)
      cases entries with
      | nil => exact hrun
      | cons entry entries =>
        have hrest := accounts_plan exec (entry :: entries) [] (d.runBatch exec (batch ++ [args])).flush
        have hall := hrun.trans hrest
        simpa [perform] using hall

theorem accounts_dispatch (exec : Executor σ) (d : Desk σ ω) : ∀ entries : List Entry,
    d.Accounts (Entry.requests entries).length (d.dispatch exec entries)
  | [] => accounts_refl d
  | entry :: entries => by
    have hall := accounts_plan exec (entry :: entries) [] d
    rwa [List.length_nil, Nat.zero_add] at hall

/-- **However the queue is found filled, the requests in it are counted.** -/
theorem accounts_dispatchAll (exec : Instant → Executor σ) : ∀ (goes : List (Instant × List Entry))
    (d : Desk σ ω), d.Accounts (Entry.requests (goes.flatMap Prod.snd)).length (d.dispatchAll exec goes)
  | [], d => accounts_refl d
  | go :: goes, d => by
    rw [List.flatMap_cons, Entry.requests_append, List.length_append]
    exact (accounts_dispatch (exec go.1) d go.2).trans (accounts_dispatchAll exec goes _)

end Desk

/-! ### What a session counts -/

namespace Session
variable {σ ω μ : Type} [Outlet ω] [Memory μ]

open Framing (readAll)

/-- The octets of the answers to what was queued in a session that found the server in this state. -/
def replied (exec : Instant → Executor σ) (server : Server σ) (o : Outcome σ) : Bytes :=
  Entry.octets exec (Desk.timed o.goes) server.state

/-- The books of a session on a server: what it left behind, beside what came. -/
structure Balanced (exec : Instant → Executor σ) (server : Server σ) (happenings : List Happening)
    (o : Outcome σ) : Prop where
  accepted : o.server.stats.accepted = server.stats.accepted + 1
  active : o.server.stats.active = server.stats.active
  made : Framing.Made [] (Happening.heard happenings) o.result o.reads
  read : o.server.stats.read = server.stats.read + (o.reads.map List.length).sum
  front : o.queued <+: (readAll [] o.reads).1
  complete : o.failure = none → o.queued = (readAll [] o.reads).1
  commands_le : o.server.stats.commands ≤ server.stats.commands + (Entry.requests o.queued).length
  commands : o.failure = none →
    o.server.stats.commands = server.stats.commands + (Entry.requests o.queued).length
  written_le : o.server.stats.written ≤ server.stats.written + (replied exec server o).length
  written : o.failure = none → o.server.stats.written = server.stats.written + o.output.length

/-- **A session leaves its books balanced.** -/
theorem balanced_run (exec : Instant → Executor σ) (server : Server σ) (connection : Connection ω μ) :
    Balanced exec server connection.happenings (run exec server connection) := by
  obtain ⟨hmade, hfront, hall, hfailure, houtput, -, hstats⟩ := run_made exec server connection
  have hanswers := Desk.answers_flush_dispatchAll exec (run exec server connection).goes
    (start server connection).desk
  have haccounts := (Desk.accounts_dispatchAll exec (run exec server connection).goes
    (start server connection).desk).trans (Desk.accounts_flush _)
  rw [Nat.add_zero] at haccounts
  have hkept := fun hnone : (run exec server connection).failure = none =>
    Desk.gone_eq_false_iff.mpr (hfailure.symm.trans hnone)
  refine ⟨?_, ?_, hmade, ?_, hfront, hall, ?_, fun hnone => ?_, ?_, fun hnone => ?_⟩
  · rw [hstats]
    exact haccounts.accepted
  · rw [hstats]
    exact congrArg (· - 1) haccounts.active
  · rw [hstats, ← List.length_flatten]
  · rw [hstats]
    exact haccounts.commands_le
  · rw [hstats]
    exact haccounts.commands (hkept hnone)
  · rw [hstats]
    exact hanswers.written.counted
  · obtain ⟨hoctets, hwritten⟩ := hanswers.written.intact (hkept hnone)
    have hdelivered := hanswers.delivered connection.unused Desk.held_flush
    rw [hstats, houtput, (hdelivered.complete (hfailure.symm.trans hnone)).1]
    exact hwritten

/-! ### Sessions that follow one another -/

/-- The server after some sessions. -/
def serverAfter (exec : Instant → Executor σ) (server : Server σ) (connections : List (Connection ω μ)) :
    Server σ :=
  connections.foldl (fun server connection => (run exec server connection).server) server

theorem getElem?_runAll (exec : Instant → Executor σ) : ∀ (connections : List (Connection ω μ))
    (server : Server σ) (i : Nat), (runAll exec server connections)[i]? =
      connections[i]?.map (run exec (serverAfter exec server (connections.take i)))
  | [], _, _ => rfl
  | _ :: _, _, 0 => rfl
  | _ :: connections, _, i + 1 => getElem?_runAll exec connections _ i

/-- What sessions that follow one another handled: their number, the requests that were queued, the octets that were
read, and those of the answers. None of them is under way. -/
def load (exec : Instant → Executor σ) (server : Server σ) : List (Connection ω μ) → Stats
  | [] => Stats.zero
  | connection :: connections =>
    let o := run exec server connection
    let rest := load exec o.server connections
    { accepted := 1 + rest.accepted
      active := rest.active
      commands := (Entry.requests o.queued).length + rest.commands
      read := (o.reads.map List.length).sum + rest.read
      written := (replied exec server o).length + rest.written }

/-- Counters count without bound. After some sessions they have grown by at most what these handled, so a machine
word holds a counter for as long as that is fewer than the word has values. -/
theorem stats_serverAfter (exec : Instant → Executor σ) : ∀ (connections : List (Connection ω μ))
    (server : Server σ),
    let stats := (serverAfter exec server connections).stats
    let load := load exec server connections
    stats.accepted = server.stats.accepted + load.accepted ∧ stats.active = server.stats.active + load.active ∧
    stats.commands ≤ server.stats.commands + load.commands ∧ stats.read = server.stats.read + load.read ∧
    stats.written ≤ server.stats.written + load.written
  | [], _ => ⟨rfl, rfl, Nat.le_refl _, rfl, Nat.le_refl _⟩
  | connection :: connections, server => by
    have hfirst := balanced_run exec server connection
    obtain ⟨haccepted, hactive, hcommands, hread, hwritten⟩ :=
      stats_serverAfter exec connections (run exec server connection).server
    rw [hfirst.accepted] at haccepted
    rw [hfirst.active] at hactive
    rw [hfirst.read] at hread
    have := hfirst.commands_le
    have := hfirst.written_le
    dsimp only [serverAfter, List.foldl_cons, load] at *
    omega

/-- **The counters balance.** However the dispatcher finds the queue filled, it counts the requests in it, and the
octets of the replies as they are written.
Each of the sessions that follow one another on a server, whatever is sent and whatever ends it, adds one to
the sessions begun, and is taken back from those under way. Its reader counts the octets of the reads that it
made. At most the requests that were framed and queued are counted, replies to what was no request never; and
if no write failed, the session queued all that it framed, and it counted exactly these requests and exactly
the octets that reached the client. -/
theorem sessions_balanced (exec : Instant → Executor σ) :
    (∀ (d : Desk σ ω) (goes : List (Instant × List Entry)),
      d.Accounts (Entry.requests (goes.flatMap Prod.snd)).length (d.dispatchAll exec goes) ∧
      d.Writes (Entry.octets exec (Desk.timed goes) d.state) (d.dispatchAll exec goes)) ∧
    ∀ (server : Server σ) (connections : List (Connection ω μ)) i connection, connections[i]? = some connection →
      let before := serverAfter exec server (connections.take i)
      (runAll exec server connections)[i]? = some (run exec before connection) ∧
      Balanced exec before connection.happenings (run exec before connection) := by
  refine ⟨fun d goes => ⟨Desk.accounts_dispatchAll exec goes d, (Desk.answers_dispatchAll exec goes d).written⟩,
    fun server connections i connection hi => ⟨?_, balanced_run exec _ connection⟩⟩
  rw [getElem?_runAll, hi]
  rfl

end Session
end Keyspace
