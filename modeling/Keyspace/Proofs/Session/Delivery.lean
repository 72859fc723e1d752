/-
# Sessions deliver their replies

The reader hands the entries it frames to the dispatcher in their order, and all of them, unless the
client is gone: then it has handed over the first ones (`stops_play`). This holds however reading ends:
with the stream, inside a request, on a fatal fault, or because reading failed. The goes of the dispatcher have
taken them all when the session is over (`Queues.close`), so what it leaves behind is what these goes came to
(`run_made`). Together with what the dispatcher makes of entries (`Desk.delivered_dispatchAll`), a session sends one
reply for each entry, in order, and a session that loses its client has sent a front part of that, which may end
inside a reply (`replies_in_order`). A client that takes everything is not lost.

Key theorems: `Queues.close`, `run_made`, `replies_in_order`.
-/
import Keyspace.Proofs.Session.Reads
import Keyspace.Proofs.Session.Replies
import Keyspace.Proofs.Session.Steady

namespace Keyspace
namespace Session
variable {σ ω μ : Type} [Outlet ω] {exec : Instant → Executor σ} {s t : Session σ ω μ} {n : Nat}
  {data : Bytes} {queued : List Entry} {r : Stretch σ ω μ}

open Framing (readAll)

/-! ### Sessions that are over -/

/-- A session that is over has carried its entries through: the goes of its dispatcher took them all. -/
theorem Queues.close (h : Queues exec s n queued t) (hgoes : s.goes = []) (hqueue : s.queue = []) :
    (t.close exec).goes.flatMap Prod.snd = queued ∧
      (t.close exec).desk =
        (s.desk.dispatchAll exec (t.close exec).goes).flush.withRead (s.desk.stats.read + n) := by
  obtain ⟨goes, hmade, htaken, hdesk⟩ := h.trans (queues_drain t)
  have hclosed : (t.close exec).goes = goes := by rw [Session.close, hmade, hgoes, List.nil_append]
  rw [hclosed]
  constructor
  · simpa [hqueue, drain] using htaken.symm
  · rw [Session.close, hdesk, Desk.withRead_flush]
    rfl

/-- A dispatcher that had given up has nothing left to do. -/
theorem gone_of_gone_close (h : (t.close exec).gone = false) : t.gone = false := by
  cases hgone : t.gone with
  | false => rfl
  | true =>
    have hdrained : (t.drain exec).desk = t.desk :=
      (Desk.answers_dispatch exec t.desk t.now t.queue).written.gone hgone
    have hclosed : (t.close exec).desk = t.desk := by
      rw [Session.close, hdrained]
      exact (Desk.writes_flush t.desk).gone hgone
    rw [gone, hclosed] at h
    exact hgone.symm.trans h

/-- What reading ended with is what the session ends with, unless that was the end of the stream. -/
theorem made_result {pending : Bytes} {read : Except SessionError Unit} {reads : List Bytes}
    (h : Framing.Made pending data read reads) (failure : Option String) :
    Framing.Made pending data (result read failure) reads := by
  refine ⟨h.nonempty, h.front, h.waits, h.last.imp_right (Or.imp_left fun hlost => ?_)⟩
  rw [hlost]
  rfl

variable [Memory μ]

/-- **What a session did in all**: it made its reads, queued what they are read as, or the first of it if the client
was gone, and left behind what its goes on that came to. -/
theorem run_made (exec : Instant → Executor σ) (server : Server σ) (connection : Connection ω μ) :
    let o := run exec server connection
    let d := ((start server connection).desk.dispatchAll exec o.goes).flush
    Framing.Made [] (Happening.heard connection.happenings) o.result o.reads ∧
    o.queued <+: (readAll [] o.reads).1 ∧
    (o.failure = none → o.queued = (readAll [] o.reads).1) ∧
    o.failure = d.failure ∧ o.output = Outlet.sent d.outlet ∧ o.server.state = d.state ∧
    o.server.stats =
      { d.stats with active := d.stats.active - 1, read := server.stats.read + o.reads.flatten.length } := by
  intro o d
  obtain ⟨queued, hstops⟩ := stops_play exec connection.happenings (start server connection)
  obtain ⟨htaken, hdesk⟩ := hstops.queues.close rfl rfl
  have hqueued : o.queued = queued := htaken
  rw [hqueued]
  refine ⟨made_result hstops.made _, hstops.front, fun hnone => ?_, congrArg (·.failure) hdesk,
    congrArg (Outlet.sent ·.outlet) hdesk, congrArg (·.state) hdesk, ?_⟩
  · exact hstops.complete (gone_of_gone_close (Desk.gone_eq_false_iff.mpr hnone))
  · exact congrArg (fun d : Desk σ ω => { d.stats with active := d.stats.active - 1 }) hdesk

/-! ### The theorem -/

/-- **Replies are complete, in order and unduplicated.** However the dispatcher finds the queue filled,
it delivers the answers of the entries, one each, as if the entries were answered one at a time in the
order of the queue; no job is larger than a batch may be. So does a session, whatever ends its reading: it
delivers the answers of the entries that it queued. These are the entries that it read, and if its client is gone,
the first of them. No client is gone whose outlet never fails. -/
theorem replies_in_order (exec : Instant → Executor σ) :
    (∀ (d : Desk σ ω) (goes : List (Instant × List Entry)), Outlet.octets d.outlet = [] →
      let e := d.dispatchAll exec goes
      Delivered exec d.state (Desk.timed goes) e.failure (Outlet.sent e.outlet) e.state) ∧
    (∀ (es : List (Instant × Entry)) (state : σ), (Entry.answerAll exec es state).1.length = es.length) ∧
    (∀ (entries : List Entry), ∀ job ∈ Move.jobs entries, job.length ≤ Move.maxBatch) ∧
    ∀ (server : Server σ) (connection : Connection ω μ),
      let o := run exec server connection
      Framing.Made [] (Happening.heard connection.happenings) o.result o.reads ∧
      o.queued <+: (readAll [] o.reads).1 ∧
      (o.failure = none → o.queued = (readAll [] o.reads).1) ∧
      (Outlet.Steady connection.outlet → o.failure = none) ∧
      Delivered exec server.state (Desk.timed o.goes) o.failure o.output o.server.state := by
  refine ⟨fun d goes hunused => Desk.delivered_dispatchAll exec d hunused goes, Entry.length_answerAll exec,
    fun _ _ => Move.length_of_mem_jobs, fun server connection => ?_⟩
  obtain ⟨hmade, hfront, hall, hfailure, houtput, hstate, -⟩ := run_made exec server connection
  have hanswers := Desk.answers_flush_dispatchAll exec (run exec server connection).goes
    (start server connection).desk
  refine ⟨hmade, hfront, hall, failure_of_steady exec server, ?_⟩
  rw [hfailure, houtput, hstate]
  exact hanswers.delivered connection.unused Desk.held_flush

/-! ### Clients that hang up inside a reply -/

/-- The way to a client that takes octets one by one, and hangs up after so many. -/
structure Line where
  left : Nat
  sent : Bytes
  deriving DecidableEq, Repr

instance : Outlet Line where
  sent := Line.sent
  held := fun _ => []
  write := fun line data =>
    (if data.length ≤ line.left then none else some "connection reset",
      ⟨line.left - data.length, line.sent ++ data.take line.left⟩)
  flush := fun line => (none, line)
  octets_write := fun {line data} h => by
    have hleft : data.length ≤ line.left := by simpa using h
    simp [List.take_of_length_le hleft]
  sent_write := fun line data => by
    rw [List.append_nil]
    exact (List.prefix_append_right_inj _).mpr (List.take_prefix _ _)
  sent_flush := fun _ => List.prefix_append _ _
  octets_flush := fun _ => rfl
  held_flush := fun _ => rfl

/-- The client gets a reply and the first half of the next one. -/
theorem replies_in_order_hang_up :
    let exec : Instant → Executor Nat := fun _ _ n => (some (.count n), n + 1)
    let goes : List (Instant × List Entry) := [(0, [.request [], .request []])]
    let desk : Desk Nat Line := ⟨0, Stats.zero, ⟨6, []⟩, none⟩
    let after := desk.dispatchAll exec goes
    after.failure = some "connection reset" ∧ after.outlet.sent = [58, 48, 13, 10, 58, 49] ∧
      Delivered exec 0 (Desk.timed goes) after.failure after.outlet.sent after.state := by
  intro exec goes desk after
  exact ⟨by decide, by decide, (replies_in_order (μ := Places) exec).1 desk goes rfl⟩

end Session
end Keyspace
