/-
# Clients that take everything

On a steady outlet no write and no flush ever fails, so the dispatcher of its session never gives up, whatever
the executor answers (`Session.failure_of_steady`). The pipe to a client without a limit is one (`Pipe.steady_fresh`).

Key definition: `Outlet.Steady`.
Key theorems: `Session.gone_of_steady`, `Session.failure_of_steady`.
-/
import Keyspace.Session.Run

namespace Keyspace

/-- However the outlet is used, no write on it fails: this is so in its state, and in every state that writes and
flushes lead to. -/
def Outlet.Steady {ω : Type} [Outlet ω] (o : ω) : Prop :=
  ∃ holds : ω → Prop, holds o ∧ ∀ p, holds p →
    (∀ data, (write p data).1 = none ∧ holds (write p data).2) ∧ (flush p).1 = none ∧ holds (flush p).2

namespace Outlet.Steady
variable {ω : Type} [Outlet ω] {o : ω}

theorem write (h : Steady o) (data : Bytes) :
    (Outlet.write o data).1 = none ∧ Steady (Outlet.write o data).2 := by
  obtain ⟨holds, ho, hkept⟩ := h
  obtain ⟨hnone, hnext⟩ := (hkept o ho).1 data
  exact ⟨hnone, holds, hnext, hkept⟩

theorem flush (h : Steady o) : (Outlet.flush o).1 = none ∧ Steady (Outlet.flush o).2 := by
  obtain ⟨holds, ho, hkept⟩ := h
  obtain ⟨-, hnone, hnext⟩ := hkept o ho
  exact ⟨hnone, holds, hnext, hkept⟩

end Outlet.Steady

namespace Pipe
variable {p : Pipe}

theorem transmit_of_unlimited (h : p.limit = none) (data : Bytes) :
    p.transmit data = (none, { p with sent := p.sent ++ data }) := by
  rw [transmit, takes, h]
  rfl

theorem flush_of_unlimited (h : p.limit = none) : p.flush.1 = none ∧ p.flush.2.limit = none := by
  rw [flush, transmit_of_unlimited h]
  exact ⟨rfl, h⟩

theorem makeRoom_of_unlimited (h : p.limit = none) (n : Nat) :
    (p.makeRoom n).1 = none ∧ (p.makeRoom n).2.limit = none := by
  unfold makeRoom
  split
  · exact flush_of_unlimited h
  · exact ⟨rfl, h⟩

theorem write_of_unlimited (h : p.limit = none) (data : Bytes) :
    (p.write data).1 = none ∧ (p.write data).2.limit = none := by
  obtain ⟨hnone, hlimit⟩ := makeRoom_of_unlimited h data.length
  unfold write
  generalize p.makeRoom data.length = made at hnone hlimit ⊢
  obtain ⟨failure, q⟩ := made
  obtain rfl : failure = none := hnone
  dsimp only
  split
  · rw [transmit_of_unlimited hlimit]
    exact ⟨rfl, hlimit⟩
  · exact ⟨rfl, hlimit⟩

theorem steady_fresh : Outlet.Steady (fresh none) :=
  ⟨fun p => p.limit = none, rfl, fun _ h => ⟨write_of_unlimited h, flush_of_unlimited h⟩⟩

end Pipe

namespace Desk
variable {σ ω : Type} [Outlet ω] {d : Desk σ ω}

/-- The outlet is steady and no write has failed. -/
structure Steady (d : Desk σ ω) : Prop where
  intact : d.failure = none
  outlet : Outlet.Steady d.outlet

theorem Steady.not_gone (h : d.Steady) : ¬ d.gone = true := by
  rw [gone, h.intact]
  nofun

theorem Steady.flush (h : d.Steady) : d.flush.Steady := by
  rw [Desk.flush, if_neg h.not_gone]
  exact ⟨h.outlet.flush.1, h.outlet.flush.2⟩

theorem Steady.send (h : d.Steady) (reply : Value) : (d.send reply).Steady := by
  have hwritten : (d.write reply.encode).Steady := ⟨(h.outlet.write _).1, (h.outlet.write _).2⟩
  rw [Desk.send, if_neg h.not_gone]
  dsimp only
  rw [if_neg hwritten.not_gone]
  exact ⟨hwritten.intact, hwritten.outlet⟩

theorem Steady.sendAnswer (h : d.Steady) (reply : Value) : (d.sendAnswer reply).Steady := by
  rw [Desk.sendAnswer, if_neg h.not_gone]
  exact Steady.send (d := d.countCommand) ⟨h.intact, h.outlet⟩ reply

theorem Steady.runBatch (h : d.Steady) (exec : Executor σ) (batch : List (List Bytes)) :
    (d.runBatch exec batch).Steady := by
  rw [Desk.runBatch, if_neg h.not_gone]
  exact List.foldlRecOn (motive := Steady) _ Desk.sendAnswer ⟨h.intact, h.outlet⟩
    fun _ hd reply _ => hd.sendAnswer reply

theorem Steady.perform (h : d.Steady) (exec : Executor σ) (move : Move) : (d.perform exec move).Steady := by
  cases move with
  | run batch => exact h.runBatch exec batch
  | send reply => exact h.send reply
  | flush => exact h.flush

theorem Steady.dispatch (h : d.Steady) (exec : Executor σ) (entries : List Entry) :
    (d.dispatch exec entries).Steady :=
  List.foldlRecOn (motive := Steady) _ (Desk.perform exec) h fun _ hd move _ => hd.perform exec move

end Desk

namespace Session
variable {σ ω μ : Type} [Outlet ω] (exec : Instant → Executor σ) {s : Session σ ω μ}

theorem steady_drain (h : s.desk.Steady) : (s.drain exec).desk.Steady := h.dispatch (exec s.now) s.queue

theorem steady_withPlace (h : s.desk.Steady) : (s.withPlace exec).desk.Steady := by
  unfold withPlace
  split
  · exact h
  · exact steady_drain exec h

theorem steady_enqueue : ∀ (entries : List Entry) {s : Session σ ω μ}, s.desk.Steady →
    (s.enqueue exec entries).2.desk.Steady
  | [], _, h => h
  | e :: entries, s, h => by
    have hplace := steady_withPlace exec h
    rw [enqueue, gone, if_neg hplace.not_gone]
    exact steady_enqueue entries hplace

variable [Memory μ]

theorem steady_frame (h : s.desk.Steady) : (s.frame exec).2.desk.Steady := by
  have hqueued := steady_enqueue exec (Framing.frame s.buffer.pending).entries
    (s := { s with buffer := s.buffer.consume (Framing.frame s.buffer.pending).used }) h
  unfold frame
  dsimp only
  split
  · next heq => rwa [heq] at hqueued
  · next heq =>
    rw [heq] at hqueued
    split
    · exact hqueued
    · exact steady_enqueue exec _ hqueued

theorem steady_read (h : s.desk.Steady) (data : Bytes) : (s.read data).desk.Steady := ⟨h.intact, h.outlet⟩

theorem steady_receive (data : Bytes) (h : s.desk.Steady) : (s.receive exec data).session.desk.Steady := by
  fun_induction receive exec s data with
  | case1 s => exact h
  | case2 s data _ n e t hframe =>
    have hframed := steady_frame exec (steady_read h (data.take n))
    rwa [hframe] at hframed
  | case3 s data _ n t hframe ih =>
    have hframed := steady_frame exec (steady_read h (data.take n))
    rw [hframe] at hframed
    exact ih hframed

theorem steady_play : ∀ (happenings : List Happening) {s : Session σ ω μ}, s.desk.Steady →
    (s.play exec happenings).session.desk.Steady
  | [], _, h => h
  | .arrival data :: happenings, s, h => by
    have hreceived := steady_receive exec data h
    unfold play
    split
    · next heq => rwa [heq] at hreceived
    · next heq => exact steady_play happenings (by rwa [heq] at hreceived)
  | .delay nanos :: happenings, s, h => steady_play happenings (s := { s with now := s.now + nanos }) h
  | .untilSent n :: happenings, s, h => by
    unfold play
    split
    · exact steady_play happenings (steady_drain exec h)
    · exact steady_play happenings h
  | .untilFailed :: happenings, s, h => by
    unfold play
    split
    · exact steady_play happenings h
    · exact steady_play happenings (steady_drain exec h)
  | .breakdown _ :: _, _, h => h

variable (server : Server σ) {connection : Connection ω μ} (h : Outlet.Steady connection.outlet)
include h

/-- **The dispatcher of a client that takes everything does not give up.** -/
theorem gone_of_steady :
    ((start server connection).play exec connection.happenings).session.gone = false := by
  have hplayed := steady_play exec connection.happenings (s := start server connection) ⟨rfl, h⟩
  rw [gone, Desk.gone, hplayed.intact]
  rfl

/-- Nor does it to the end. -/
theorem failure_of_steady : (run exec server connection).failure = none :=
  (steady_drain exec (steady_play exec connection.happenings (s := start server connection) ⟨rfl, h⟩)).flush.intact

end Session
end Keyspace
