/-
# What a session queues

The dispatcher is handed the entries in their order, in goes that take the queue as it is (`Queues`). Entries are
refused only by a dispatcher that has given up, and then the first of them have been queued. The octets of a read
are framed behind those in the buffer, wherever its memory keeps them.

The dispatcher does not look at the count of octets received, which is the reader's; a `Desk` with another count
is `withRead`.

Key definitions: `Desk.dispatchAll`, `Session.Queues`, `Framing.verdict`.
Key theorems: `queues_enqueue`, `queues_frame`, `begins_frame`.
-/
import Keyspace.Session.Run

namespace Keyspace

/-! ### The reader's count at the desk -/

namespace Desk
variable {σ ω : Type}

theorem gone_eq_false_iff {d : Desk σ ω} : d.gone = false ↔ d.failure = none := by
  rw [gone, Option.isSome_eq_false_iff, Option.isNone_iff_eq_none]

/-- The desk with another count of octets received. -/
def withRead (d : Desk σ ω) (n : Nat) : Desk σ ω := { d with stats := { d.stats with read := n } }

theorem gone_withRead (d : Desk σ ω) (n : Nat) : (d.withRead n).gone = d.gone := rfl

variable [Outlet ω]

theorem withRead_flush (d : Desk σ ω) (n : Nat) : (d.withRead n).flush = d.flush.withRead n := by
  unfold flush
  rw [gone_withRead]
  split <;> rfl

theorem withRead_send (d : Desk σ ω) (n : Nat) (reply : Value) :
    (d.withRead n).send reply = (d.send reply).withRead n := by
  have hwritten : (d.withRead n).write reply.encode = (d.write reply.encode).withRead n := rfl
  unfold send
  dsimp only
  rw [gone_withRead, hwritten, gone_withRead]
  split
  · rfl
  · split <;> rfl

theorem withRead_sendAnswer (d : Desk σ ω) (n : Nat) (reply : Value) :
    (d.withRead n).sendAnswer reply = (d.sendAnswer reply).withRead n := by
  unfold sendAnswer
  rw [gone_withRead]
  split
  · rfl
  · exact withRead_send d.countCommand n reply

theorem withRead_runBatch (exec : Executor σ) (d : Desk σ ω) (n : Nat) (batch : List (List Bytes)) :
    (d.withRead n).runBatch exec batch = (d.runBatch exec batch).withRead n := by
  unfold runBatch
  rw [gone_withRead]
  split
  · rfl
  · show (exec.runAll batch d.state).1.foldl sendAnswer
      ({ d with state := (exec.runAll batch d.state).2 }.withRead n) = _
    exact List.foldl_hom (fun d : Desk σ ω => d.withRead n) fun d reply => withRead_sendAnswer d n reply

theorem withRead_perform (exec : Executor σ) (d : Desk σ ω) (n : Nat) (move : Move) :
    (d.withRead n).perform exec move = (d.perform exec move).withRead n := by
  cases move with
  | run batch => exact withRead_runBatch exec d n batch
  | send reply => exact withRead_send d n reply
  | flush => exact withRead_flush d n

theorem withRead_dispatch (exec : Executor σ) (d : Desk σ ω) (n : Nat) (entries : List Entry) :
    (d.withRead n).dispatch exec entries = (d.dispatch exec entries).withRead n :=
  List.foldl_hom (fun d : Desk σ ω => d.withRead n) fun d move => withRead_perform exec d n move

/-- Works in several goes, each at its time and on its entries. -/
def dispatchAll (exec : Instant → Executor σ) (d : Desk σ ω) (goes : List (Instant × List Entry)) : Desk σ ω :=
  goes.foldl (fun d go => d.dispatch (exec go.1) go.2) d

theorem dispatchAll_append (exec : Instant → Executor σ) (d : Desk σ ω) (goes goes' : List (Instant × List Entry)) :
    d.dispatchAll exec (goes ++ goes') = (d.dispatchAll exec goes).dispatchAll exec goes' :=
  List.foldl_append

theorem withRead_dispatchAll (exec : Instant → Executor σ) (d : Desk σ ω) (n : Nat)
    (goes : List (Instant × List Entry)) :
    (d.withRead n).dispatchAll exec goes = (d.dispatchAll exec goes).withRead n :=
  List.foldl_hom (fun d : Desk σ ω => d.withRead n) fun d go => withRead_dispatch (exec go.1) d n go.2

end Desk

/-! ### Entries, queued in their order -/

namespace Framing

theorem fatal_of_ending {f : Framing} {left : Nat} (h : f.ending left = none) : f.fatal = none := by
  unfold ending at h
  split at h
  · cases h
  · assumption

/-- What a read comes to when `left` octets stay in the buffer. -/
def verdict (f : Framing) (left : Nat) : Except SessionError Unit :=
  match f.ending left with
  | none => .ok ()
  | some e => .error e

end Framing

namespace Session
variable {σ ω μ : Type} [Outlet ω] {exec : Instant → Executor σ} {s t u : Session σ ω μ}
  {entries entries' : List Entry} {e : SessionError} {n m : Nat}

/-- From `s` to `t` the session received `n` octets and queued these entries, in this order: the dispatcher worked
on what was in the queue in some goes, and the rest is in the queue still. -/
def Queues (exec : Instant → Executor σ) (s : Session σ ω μ) (n : Nat) (entries : List Entry)
    (t : Session σ ω μ) : Prop :=
  ∃ goes : List (Instant × List Entry),
    t.goes = s.goes ++ goes ∧ s.queue ++ entries = goes.flatMap Prod.snd ++ t.queue ∧
    t.desk = (s.desk.dispatchAll exec goes).withRead (s.desk.stats.read + n)

theorem Queues.trans (h : Queues exec s n entries t) (h' : Queues exec t m entries' u) :
    Queues exec s (n + m) (entries ++ entries') u := by
  obtain ⟨goes, hgoes, hqueue, hdesk⟩ := h
  obtain ⟨goes', hgoes', hqueue', hdesk'⟩ := h'
  refine ⟨goes ++ goes', ?_, ?_, ?_⟩
  · rw [hgoes', hgoes, List.append_assoc]
  · rw [← List.append_assoc, hqueue, List.append_assoc, hqueue', List.flatMap_append, List.append_assoc]
  · have hread : t.desk.stats.read = s.desk.stats.read + n := congrArg (·.stats.read) hdesk
    rw [hdesk', hread, hdesk, Desk.withRead_dispatchAll, Desk.dispatchAll_append, Nat.add_assoc]
    rfl

/-- Time passes, the buffer changes or octets are counted, and the queue stays. -/
theorem queues_nothing (hgoes : t.goes = s.goes) (hqueue : t.queue = s.queue)
    (hdesk : t.desk = s.desk.withRead (s.desk.stats.read + n)) : Queues exec s n [] t :=
  ⟨[], by rw [hgoes, List.append_nil], by rw [List.append_nil, hqueue]; rfl, hdesk⟩

theorem queues_refl (s : Session σ ω μ) : Queues exec s 0 [] s := queues_nothing rfl rfl rfl

theorem queues_drain (s : Session σ ω μ) : Queues exec s 0 [] (s.drain exec) := by
  refine ⟨[(s.now, s.queue)], rfl, ?_,
    Desk.withRead_dispatchAll exec s.desk s.desk.stats.read [(s.now, s.queue)]⟩
  simp [drain]

theorem queues_entry (s : Session σ ω μ) (e : Entry) :
    Queues exec s 0 [e] { s with queue := s.queue ++ [e] } := ⟨[], (List.append_nil _).symm, rfl, rfl⟩

/-- Making place in the queue may call the dispatcher, and does nothing else. -/
theorem queues_withPlace (exec : Instant → Executor σ) (s : Session σ ω μ) :
    Queues exec s 0 [] (s.withPlace exec) ∧ (s.withPlace exec).buffer = s.buffer := by
  unfold withPlace
  split
  · exact ⟨queues_refl s, rfl⟩
  · exact ⟨queues_drain s, rfl⟩

theorem enqueue_cons_of_gone (es : List Entry) {entry : Entry} (h : (s.withPlace exec).gone = true) :
    s.enqueue exec (entry :: es) = (.error .clientGone, s.withPlace exec) := by
  simp only [enqueue, h, if_true]

theorem enqueue_cons_of_kept (es : List Entry) {entry : Entry} (h : ¬ (s.withPlace exec).gone = true) :
    s.enqueue exec (entry :: es) =
      enqueue exec { s.withPlace exec with queue := (s.withPlace exec).queue ++ [entry] } es := by
  simp only [enqueue, h, if_false, Bool.false_eq_true]

/-- Entries are refused only by a dispatcher that has given up. -/
theorem enqueue_error (exec : Instant → Executor σ) : ∀ (entries : List Entry) {s : Session σ ω μ},
    (s.enqueue exec entries).1 = .error e → e = .clientGone ∧ (s.enqueue exec entries).2.gone = true
  | [], _, h => by cases h
  | entry :: entries, s, h => by
    by_cases hgone : (s.withPlace exec).gone = true
    · rw [enqueue_cons_of_gone entries hgone] at h ⊢
      exact ⟨(Except.error.inj h).symm, hgone⟩
    · rw [enqueue_cons_of_kept entries hgone] at h ⊢
      exact enqueue_error exec entries h

theorem enqueue_ok_of_kept (exec : Instant → Executor σ) {s : Session σ ω μ}
    (h : (s.enqueue exec entries).2.gone = false) : (s.enqueue exec entries).1 = .ok () := by
  cases hresult : (s.enqueue exec entries).1 with
  | ok _ => rfl
  | error e =>
    have hgone := (enqueue_error exec entries hresult).2
    rw [h] at hgone
    cases hgone

theorem queues_enqueue (exec : Instant → Executor σ) : ∀ (entries : List Entry) {s : Session σ ω μ},
    (s.enqueue exec entries).1 = .ok () →
    Queues exec s 0 entries (s.enqueue exec entries).2 ∧ (s.enqueue exec entries).2.buffer = s.buffer
  | [], s, _ => ⟨queues_refl s, rfl⟩
  | entry :: entries, s, h => by
    obtain ⟨hplace, hbuffer⟩ := queues_withPlace exec s
    by_cases hgone : (s.withPlace exec).gone = true
    · rw [enqueue_cons_of_gone entries hgone] at h
      cases h
    · rw [enqueue_cons_of_kept entries hgone] at h ⊢
      obtain ⟨hqueues, hbuffer'⟩ := queues_enqueue exec entries h
      exact ⟨(hplace.trans (queues_entry _ entry)).trans hqueues, hbuffer'.trans hbuffer⟩

/-- Entries are queued from the first on, until one is refused. -/
theorem begins_enqueue (exec : Instant → Executor σ) : ∀ (entries : List Entry) (s : Session σ ω μ),
    ∃ queued, queued <+: entries ∧ Queues exec s 0 queued (s.enqueue exec entries).2
  | [], s => ⟨[], List.nil_prefix, queues_refl s⟩
  | entry :: entries, s => by
    obtain ⟨hplace, -⟩ := queues_withPlace exec s
    by_cases hgone : (s.withPlace exec).gone = true
    · rw [enqueue_cons_of_gone entries hgone]
      exact ⟨[], List.nil_prefix, hplace⟩
    · obtain ⟨queued, hfront, hqueues⟩ := begins_enqueue exec entries
        { s.withPlace exec with queue := (s.withPlace exec).queue ++ [entry] }
      rw [enqueue_cons_of_kept entries hgone]
      exact ⟨entry :: queued, List.cons_prefix_cons.mpr ⟨rfl, hfront⟩,
        (hplace.trans (queues_entry _ entry)).trans hqueues⟩

/-! ### Framing the buffer -/

variable [Memory μ]

/-- The session behind the framing of its buffer, with nothing queued yet. -/
def framed (s : Session σ ω μ) : Session σ ω μ :=
  { s with buffer := s.buffer.consume (Framing.frame s.buffer.pending).used }

theorem queues_framed (s : Session σ ω μ) : Queues exec s 0 [] s.framed := queues_nothing rfl rfl rfl

theorem frame_eq (exec : Instant → Executor σ) (s : Session σ ω μ) :
    s.frame exec = match s.framed.enqueue exec (Framing.frame s.buffer.pending).entries with
      | (.error e, t) => (.error e, t)
      | (.ok (), t) =>
        match (Framing.frame s.buffer.pending).ending (Framing.left s.buffer.pending).length with
        | none => (.ok (), t)
        | some e => (.error e, (t.enqueue exec
            ((Framing.frame s.buffer.pending).fatal.toList.map fun fault => .ready fault.reply)).2) := rfl

/-- Without a refusal, the session queues what framing its buffer gives, and ends as that says. -/
theorem queues_frame (exec : Instant → Executor σ) {s : Session σ ω μ}
    (h : (s.frame exec).1 = .ok () ∨ (s.frame exec).2.gone = false) :
    Queues exec s 0 (Framing.frame s.buffer.pending).queued (s.frame exec).2 ∧
    (s.frame exec).2.buffer.pending = Framing.left s.buffer.pending ∧
    (s.frame exec).1 =
      (Framing.frame s.buffer.pending).verdict (Framing.left s.buffer.pending).length := by
  rw [frame_eq] at h ⊢
  have hrefused := fun e => enqueue_error (e := e) exec (Framing.frame s.buffer.pending).entries (s := s.framed)
  have hqueues := queues_enqueue exec (Framing.frame s.buffer.pending).entries (s := s.framed)
  generalize s.framed.enqueue exec (Framing.frame s.buffer.pending).entries = queued at h hrefused hqueues ⊢
  obtain ⟨result, t⟩ := queued
  cases result with
  | error e =>
    rcases h with hok | hgone
    · cases hok
    · exact absurd (hrefused e rfl).2 (by rw [hgone]; nofun)
  | ok _ =>
    obtain ⟨hentries, hbuffer⟩ := hqueues rfl
    have hleft : t.buffer.pending = Framing.left s.buffer.pending := congrArg ReadBuffer.pending hbuffer
    unfold Framing.verdict
    cases hend : (Framing.frame s.buffer.pending).ending (Framing.left s.buffer.pending).length with
    | none =>
      refine ⟨?_, hleft, rfl⟩
      rw [Framing.queued, Framing.fatal_of_ending hend]
      exact (queues_framed s).trans (hentries.trans (queues_refl t))
    | some e =>
      simp only [hend] at h ⊢
      have hgone := h.resolve_left nofun
      obtain ⟨hreply, hbuffer'⟩ := queues_enqueue exec _ (enqueue_ok_of_kept exec hgone)
      exact ⟨(queues_framed s).trans (hentries.trans hreply),
        (congrArg ReadBuffer.pending hbuffer').trans hleft, trivial⟩

/-- In any case the session queues a front part of what framing its buffer gives. -/
theorem begins_frame (exec : Instant → Executor σ) (s : Session σ ω μ) :
    ∃ queued, queued <+: (Framing.frame s.buffer.pending).queued ∧ Queues exec s 0 queued (s.frame exec).2 := by
  rw [frame_eq]
  have hbegins := begins_enqueue exec (Framing.frame s.buffer.pending).entries s.framed
  have hqueues := queues_enqueue exec (Framing.frame s.buffer.pending).entries (s := s.framed)
  generalize s.framed.enqueue exec (Framing.frame s.buffer.pending).entries = queued at hbegins hqueues ⊢
  obtain ⟨result, t⟩ := queued
  cases result with
  | error e =>
    obtain ⟨front, hfront, hentries⟩ := hbegins
    exact ⟨front, hfront.trans (List.prefix_append _ _), (queues_framed s).trans hentries⟩
  | ok _ =>
    obtain ⟨hentries, -⟩ := hqueues rfl
    dsimp only
    split
    · exact ⟨_, List.prefix_append _ _, (queues_framed s).trans hentries⟩
    · obtain ⟨front, hfront, hreply⟩ := begins_enqueue exec
        ((Framing.frame s.buffer.pending).fatal.toList.map fun fault => .ready fault.reply) t
      exact ⟨_, (List.prefix_append_right_inj _).mpr hfront, (queues_framed s).trans (hentries.trans hreply)⟩

/-- What ends framing is a client that is gone, or what was framed. -/
theorem frame_error (h : (s.frame exec).1 = .error e) :
    (e = .clientGone ∧ (s.frame exec).2.gone = true) ∨
      (Framing.frame s.buffer.pending).ending (Framing.left s.buffer.pending).length = some e := by
  rw [frame_eq] at h ⊢
  have hrefused := enqueue_error (e := e) exec (Framing.frame s.buffer.pending).entries (s := s.framed)
  generalize s.framed.enqueue exec (Framing.frame s.buffer.pending).entries = queued at h hrefused ⊢
  obtain ⟨result, t⟩ := queued
  cases result with
  | error e' =>
    cases h
    exact .inl (hrefused rfl)
  | ok _ =>
    dsimp only at h ⊢
    split at h
    · cases h
    · next hend => exact .inr (hend.trans (congrArg some (Except.error.inj h)))

end Session
end Keyspace
