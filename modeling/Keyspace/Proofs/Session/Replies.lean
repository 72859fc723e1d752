/-
# Replies in the order of the queue

The dispatcher gathers requests into batches, runs them, and lets ready replies out between them, by
what it finds in the queue whenever it looks. None of that shows. What it comes to is `Entry.answerAll`:
the entries answered one at a time in the order of the queue, a ready reply as it stands and a request by
the executor, or with the server error where that crashes.

Each move of the dispatcher carries a front part of the entries over to the client (`Desk.Answers`), and
moves that follow one another carry over what they carry together (`Desk.Answers.trans`). After a failed
write nothing is carried out and nothing written, so a front part it remains: `Delivered`. The outlet may be any:
of the write that fails, the client may have any part.

Key definitions: `Entry.answerAll`, `Desk.Writes`, `Desk.Answers`, `Delivered`.
Key theorems: `Desk.answers_plan`, `Desk.delivered_dispatchAll`, `Move.length_of_mem_jobs`.
-/
import Keyspace.Proofs.Session.Queueing

namespace Keyspace

/-! ### One entry at a time -/

namespace Entry
variable {σ : Type}

/-- The answer to an entry. A ready reply is its own answer; a request has the executor's, or the server error where
that crashes. -/
def answer (exec : Executor σ) (state : σ) : Entry → Value × σ
  | .ready reply => (reply, state)
  | .request args =>
    (match (exec args state).1 with
      | some v => v
      | none => .error "ERR server error",
    (exec args state).2)

/-- Answers entries one at a time, each at its instant. -/
def answerAll (exec : Instant → Executor σ) : List (Instant × Entry) → σ → List Value × σ
  | [], state => ([], state)
  | (now, e) :: es, state =>
    let (v, state) := e.answer (exec now) state
    let (vs, state) := answerAll exec es state
    (v :: vs, state)

/-- The octets of the answers, one after another. -/
def octets (exec : Instant → Executor σ) (es : List (Instant × Entry)) (state : σ) : Bytes :=
  (answerAll exec es state).1.flatMap Value.encode

/-- Entries that are taken from the queue at one instant. -/
def stamped (now : Instant) (es : List Entry) : List (Instant × Entry) := es.map (now, ·)

variable (exec : Instant → Executor σ)

/-- There is one answer for each entry. -/
theorem length_answerAll : ∀ (es : List (Instant × Entry)) (state : σ),
    (answerAll exec es state).1.length = es.length
  | [], _ => rfl
  | _ :: es, _ => congrArg (· + 1) (length_answerAll es _)

theorem answerAll_append : ∀ (as bs : List (Instant × Entry)) (state : σ),
    answerAll exec (as ++ bs) state =
      ((answerAll exec as state).1 ++ (answerAll exec bs (answerAll exec as state).2).1,
        (answerAll exec bs (answerAll exec as state).2).2)
  | [], _, _ => rfl
  | (now, e) :: as, bs, state => by
    have ih := answerAll_append as bs (e.answer (exec now) state).2
    simp only [List.cons_append, answerAll, ih]

theorem octets_append (as bs : List (Instant × Entry)) (state : σ) :
    octets exec (as ++ bs) state =
      octets exec as state ++ octets exec bs (answerAll exec as state).2 := by
  simp only [octets, answerAll_append, List.flatMap_append]

theorem answer_request (exec : Executor σ) (args : List Bytes) (state : σ) :
    answer exec state (.request args) = exec.answer args state := by
  rw [answer, Executor.answer]
  rcases exec args state with ⟨_ | v, after⟩ <;> rfl

/-- A batch is answered like its requests one at a time. -/
theorem answerAll_requests (now : Instant) : ∀ (batch : List (List Bytes)) (state : σ),
    answerAll exec (stamped now (batch.map .request)) state = (exec now).runAll batch state
  | [], _ => rfl
  | args :: batch, state => by
    have ih := answerAll_requests now batch ((exec now).answer args state).2
    simp only [stamped, List.map_cons, answerAll, answer_request, Executor.runAll] at ih ⊢
    rw [ih]

end Entry

/-! ### What the dispatcher writes -/

namespace Desk
variable {σ ω : Type} [Outlet ω] {d e f : Desk σ ω} {data data' : Bytes}

open Outlet (octets sent held)

/-- From `d` to `e` these octets were written, and counted. A write that fails loses octets at the end, and behind
it nothing is written. -/
structure Writes (d : Desk σ ω) (data : Bytes) (e : Desk σ ω) : Prop where
  intact : e.gone = false →
    octets e.outlet = octets d.outlet ++ data ∧ e.stats.written = d.stats.written + data.length
  cut : sent e.outlet <+: octets d.outlet ++ data
  counted : e.stats.written ≤ d.stats.written + data.length
  gone : d.gone = true → e = d

/-- The outlet stays as it is. -/
theorem writes_nothing (houtlet : e.outlet = d.outlet) (hwritten : e.stats.written = d.stats.written)
    (hgone : d.gone = true → e = d) : d.Writes [] e where
  intact := fun _ => ⟨by rw [houtlet, List.append_nil], hwritten⟩
  cut := by
    rw [houtlet, List.append_nil]
    exact List.prefix_append _ _
  counted := Nat.le_of_eq hwritten
  gone := hgone

theorem writes_refl (d : Desk σ ω) : d.Writes [] d := writes_nothing rfl rfl fun _ => rfl

/-- After a failed write, whatever is written is lost. -/
theorem writes_gone (h : d.gone = true) (data : Bytes) : d.Writes data d where
  intact := fun hkept => by simp [h] at hkept
  cut := by
    rw [octets, List.append_assoc]
    exact List.prefix_append _ _
  counted := Nat.le_add_right _ _
  gone := fun _ => rfl

theorem Writes.trans (h : d.Writes data e) (h' : e.Writes data' f) : d.Writes (data ++ data') f := by
  cases he : e.gone with
  | false =>
    obtain ⟨hoctets, hwritten⟩ := h.intact he
    refine ⟨fun hf => ?_, ?_, ?_, fun hd => ?_⟩
    · obtain ⟨hoctets', hwritten'⟩ := h'.intact hf
      rw [hoctets', hoctets, hwritten', hwritten, List.append_assoc, List.length_append, Nat.add_assoc]
      exact ⟨rfl, rfl⟩
    · rw [← List.append_assoc, ← hoctets]
      exact h'.cut
    · have hcounted := h'.counted
      rw [List.length_append]
      omega
    · rw [h.gone hd, hd] at he
      cases he
  | true =>
    obtain rfl := h'.gone he
    refine ⟨fun hf => ?_, ?_, ?_, h.gone⟩
    · rw [he] at hf
      cases hf
    · rw [← List.append_assoc]
      exact h.cut.trans (List.prefix_append _ _)
    · have hcounted := h.counted
      rw [List.length_append]
      omega

/-- Octets are written before they are counted, and lost if that fails. -/
theorem writes_send (d : Desk σ ω) (reply : Value) : d.Writes reply.encode (d.send reply) := by
  unfold send
  split
  · next hd => exact writes_gone hd _
  · next hd =>
    have hcut : sent (d.write reply.encode).outlet <+: octets d.outlet ++ reply.encode :=
      Outlet.sent_write d.outlet reply.encode
    dsimp only
    split
    · next hlost =>
      exact ⟨fun h => by simp [hlost] at h, hcut, Nat.le_add_right _ _, fun h => absurd h hd⟩
    · next hkept =>
      have hnone : (Outlet.write d.outlet reply.encode).1 = none :=
        gone_eq_false_iff.mp (Bool.eq_false_iff.mpr hkept)
      exact ⟨fun _ => ⟨Outlet.octets_write hnone, rfl⟩, hcut, Nat.le_refl _, fun h => absurd h hd⟩

theorem writes_flush (d : Desk σ ω) : d.Writes [] d.flush := by
  unfold flush
  split
  · exact writes_refl d
  · next hd =>
    refine ⟨fun hkept => ⟨?_, rfl⟩, ?_, Nat.le_refl _, fun h => absurd h hd⟩
    · rw [List.append_nil]
      exact Outlet.octets_flush (gone_eq_false_iff.mp hkept)
    · rw [List.append_nil]
      exact Outlet.sent_flush d.outlet

/-- After a flush that succeeds nothing is held back. -/
theorem held_flush (h : d.flush.gone = false) : held d.flush.outlet = [] := by
  unfold flush at h ⊢
  split at h
  · next hd =>
    rw [hd] at h
    cases h
  · next hd =>
    rw [if_neg hd]
    exact Outlet.held_flush (gone_eq_false_iff.mp h)

theorem writes_sendAnswer (d : Desk σ ω) (reply : Value) : d.Writes reply.encode (d.sendAnswer reply) := by
  unfold sendAnswer
  split
  · next hd => exact writes_gone hd _
  · next hd =>
    have hcounted : d.Writes [] d.countCommand := writes_nothing rfl rfl fun h => absurd h hd
    exact hcounted.trans (writes_send d.countCommand reply)

/-! Replies are written and change no state. -/

theorem state_flush (d : Desk σ ω) : d.flush.state = d.state := by
  unfold flush
  split <;> rfl

theorem state_send (d : Desk σ ω) (reply : Value) : (d.send reply).state = d.state := by
  unfold send
  split
  · rfl
  · dsimp only
    split <;> rfl

theorem state_sendAnswer (d : Desk σ ω) (reply : Value) : (d.sendAnswer reply).state = d.state := by
  unfold sendAnswer
  split
  · rfl
  · exact state_send d.countCommand reply

theorem writes_sendAnswers : ∀ (replies : List Value) (d : Desk σ ω),
    d.Writes (replies.flatMap Value.encode) (replies.foldl sendAnswer d) ∧
    (replies.foldl sendAnswer d).state = d.state
  | [], d => ⟨writes_refl d, rfl⟩
  | reply :: replies, d => by
    obtain ⟨hrest, hstate⟩ := writes_sendAnswers replies (d.sendAnswer reply)
    exact ⟨(writes_sendAnswer d reply).trans hrest, hstate.trans (state_sendAnswer d reply)⟩

/-! ### What the dispatcher makes of entries -/

variable {exec : Instant → Executor σ} {es es' : List (Instant × Entry)}

/-- From `d` to `e` these entries were answered: their answers were written, as far as no write failed,
and the requests carried out are a front part of them, in their order. -/
structure Answers (exec : Instant → Executor σ) (d : Desk σ ω) (es : List (Instant × Entry))
    (e : Desk σ ω) : Prop where
  written : d.Writes (Entry.octets exec es d.state) e
  finished : e.gone = false → e.state = (Entry.answerAll exec es d.state).2
  begun : ∃ front, front <+: es ∧ e.state = (Entry.answerAll exec front d.state).2

theorem Answers.trans (h : d.Answers exec es e) (h' : e.Answers exec es' f) :
    d.Answers exec (es ++ es') f := by
  cases he : e.gone with
  | false =>
    have hstate := h.finished he
    constructor
    · rw [Entry.octets_append, ← hstate]
      exact h.written.trans h'.written
    · intro hf
      rw [h'.finished hf, hstate, Entry.answerAll_append]
    · obtain ⟨front, hfront, hbegun⟩ := h'.begun
      refine ⟨es ++ front, (List.prefix_append_right_inj es).mpr hfront, ?_⟩
      rw [hbegun, hstate, Entry.answerAll_append]
  | true =>
    obtain rfl := h'.written.gone he
    constructor
    · rw [Entry.octets_append]
      exact h.written.trans (writes_gone he _)
    · intro hf
      rw [he] at hf
      cases hf
    · obtain ⟨front, hfront, hbegun⟩ := h.begun
      exact ⟨front, hfront.trans (List.prefix_append es es'), hbegun⟩

/-- After a failed write entries are neither carried out nor answered. -/
theorem answers_gone (hd : d.gone = true) (es : List (Instant × Entry)) : d.Answers exec es d :=
  ⟨writes_gone hd _, fun h => by simp [hd] at h, ⟨[], List.nil_prefix, rfl⟩⟩

theorem answers_refl (exec : Instant → Executor σ) (d : Desk σ ω) : d.Answers exec [] d :=
  ⟨writes_refl d, fun _ => rfl, ⟨[], List.nil_prefix, rfl⟩⟩

theorem answers_flush (exec : Instant → Executor σ) (d : Desk σ ω) : d.Answers exec [] d.flush :=
  ⟨writes_flush d, fun _ => state_flush d, ⟨[], List.nil_prefix, state_flush d⟩⟩

theorem answers_send (exec : Instant → Executor σ) (d : Desk σ ω) (now : Instant) (reply : Value) :
    d.Answers exec [(now, .ready reply)] (d.send reply) := by
  refine ⟨?_, fun _ => state_send d reply, ⟨[], List.nil_prefix, state_send d reply⟩⟩
  simpa [Entry.octets, Entry.answerAll, Entry.answer] using writes_send d reply

/-- A batch is carried out as a whole before the first of its replies is written. -/
theorem answers_runBatch (exec : Instant → Executor σ) (d : Desk σ ω) (now : Instant)
    (batch : List (List Bytes)) :
    d.Answers exec (Entry.stamped now (batch.map .request)) (d.runBatch (exec now) batch) := by
  unfold runBatch
  split
  · next hd => exact answers_gone hd _
  · next hd =>
    have hcarried : d.Writes [] { d with state := ((exec now).runAll batch d.state).2 } :=
      writes_nothing rfl rfl fun h => absurd h hd
    obtain ⟨hwritten, hstate⟩ := writes_sendAnswers ((exec now).runAll batch d.state).1
      { d with state := ((exec now).runAll batch d.state).2 }
    rw [← Entry.answerAll_requests] at hcarried hwritten hstate ⊢
    exact ⟨hcarried.trans hwritten, fun _ => hstate, ⟨_, List.prefix_refl _, hstate⟩⟩

/-- **The moves laid down for the entries in the queue answer these entries**, behind those that were
gathered before. -/
theorem answers_plan (exec : Instant → Executor σ) (now : Instant) : ∀ (entries : List Entry)
    (batch : List (List Bytes)) (d : Desk σ ω),
    d.Answers exec (Entry.stamped now (batch.map .request ++ entries))
      ((Move.plan batch entries).foldl (perform (exec now)) d)
  | [], batch, d => by
    rw [List.append_nil]
    have hrun := answers_runBatch exec d now batch
    have hflush := hrun.trans (answers_flush exec _)
    rwa [List.append_nil] at hflush
  | .ready reply :: entries, batch, d => by
    have hrun := answers_runBatch exec d now batch
    have hrest := answers_plan exec now entries [] ((d.runBatch (exec now) batch).send reply)
    have hall := hrun.trans ((answers_send exec _ now reply).trans hrest)
    simpa [Entry.stamped, Move.plan, perform] using hall
  | .request args :: entries, batch, d => by
    have hsame : batch.map Entry.request ++ .request args :: entries =
        (batch ++ [args]).map .request ++ entries := by simp
    rw [hsame, Move.plan]
    split
    · exact answers_plan exec now entries (batch ++ [args]) d
    · have hrun := (answers_runBatch exec d now (batch ++ [args])).trans (answers_flush exec _)
      rw [List.append_nil] at hrun
      cases entries with
      | nil => simpa [perform] using hrun
      | cons entry entries =>
        have hrest := answers_plan exec now (entry :: entries) [] (d.runBatch (exec now) (batch ++ [args])).flush
        have hall := hrun.trans hrest
        simpa [Entry.stamped, perform] using hall

theorem answers_dispatch (exec : Instant → Executor σ) (d : Desk σ ω) (now : Instant) :
    ∀ entries : List Entry, d.Answers exec (Entry.stamped now entries) (d.dispatch (exec now) entries)
  | [] => answers_refl exec d
  | entry :: entries => answers_plan exec now (entry :: entries) [] d

/-- The last move is a flush. -/
theorem held_plan (exec : Executor σ) : ∀ (entries : List Entry) (batch : List (List Bytes)) (d : Desk σ ω),
    ((Move.plan batch entries).foldl (perform exec) d).gone = false →
    held ((Move.plan batch entries).foldl (perform exec) d).outlet = []
  | [], _, _, h => held_flush h
  | .ready _ :: entries, _, _, h => held_plan exec entries [] _ h
  | .request args :: entries, batch, d, h => by
    rw [Move.plan] at h ⊢
    split at h
    · next hlt =>
      rw [if_pos hlt]
      exact held_plan exec entries (batch ++ [args]) d h
    · next hlt =>
      rw [if_neg hlt]
      cases entries with
      | nil => exact held_flush h
      | cons entry entries => exact held_plan exec (entry :: entries) [] _ h

/-- The entries of several goes, each at the instant of its go. -/
def timed (goes : List (Instant × List Entry)) : List (Instant × Entry) :=
  goes.flatMap fun go => Entry.stamped go.1 go.2

theorem answers_dispatchAll (exec : Instant → Executor σ) : ∀ (goes : List (Instant × List Entry))
    (d : Desk σ ω), d.Answers exec (timed goes) (d.dispatchAll exec goes)
  | [], d => answers_refl exec d
  | go :: goes, d => (answers_dispatch exec d go.1 go.2).trans (answers_dispatchAll exec goes _)

/-- So they are with a flush behind the last go. -/
theorem answers_flush_dispatchAll (exec : Instant → Executor σ) (goes : List (Instant × List Entry))
    (d : Desk σ ω) : d.Answers exec (timed goes) (d.dispatchAll exec goes).flush := by
  have hall := (answers_dispatchAll exec goes d).trans (answers_flush exec _)
  rwa [List.append_nil] at hall

theorem held_dispatchAll (exec : Instant → Executor σ) : ∀ (goes : List (Instant × List Entry)) (d : Desk σ ω),
    held d.outlet = [] → (d.dispatchAll exec goes).gone = false → held (d.dispatchAll exec goes).outlet = []
  | [], _, hd, _ => hd
  | (now, []) :: goes, d, hd, h => held_dispatchAll exec goes d hd h
  | (now, entry :: entries) :: goes, d, _, h => by
    cases hgo : (d.dispatch (exec now) (entry :: entries)).gone with
    | false => exact held_dispatchAll exec goes _ (held_plan (exec now) (entry :: entries) [] d hgo) h
    | true =>
      have hgone : d.dispatchAll exec ((now, entry :: entries) :: goes) = d.dispatch (exec now) (entry :: entries) :=
        (answers_dispatchAll exec goes _).written.gone hgo
      rw [hgone, hgo] at h
      cases h

end Desk

/-- What was delivered of the answers to these entries, which found the executor in this state, and the state
after. If no write failed, the client has every reply, in order and once, and every request was carried out. In any
case the octets that it has are the first ones, and so are the requests that were carried out. -/
structure Delivered {σ : Type} (exec : Instant → Executor σ) (state : σ) (es : List (Instant × Entry))
    (failure : Option String) (output : Bytes) (after : σ) : Prop where
  complete : failure = none → output = Entry.octets exec es state ∧ after = (Entry.answerAll exec es state).2
  sent : output <+: Entry.octets exec es state
  carried : ∃ front, front <+: es ∧ after = (Entry.answerAll exec front state).2

namespace Desk
variable {σ ω : Type} [Outlet ω] {exec : Instant → Executor σ} {d e : Desk σ ω} {es : List (Instant × Entry)}

/-- What was answered and flushed is delivered. -/
theorem Answers.delivered (h : d.Answers exec es e) (hunused : Outlet.octets d.outlet = [])
    (hheld : e.gone = false → Outlet.held e.outlet = []) :
    Delivered exec d.state es e.failure (Outlet.sent e.outlet) e.state where
  complete := fun hnone => by
    have hkept := gone_eq_false_iff.mpr hnone
    have hall := (h.written.intact hkept).1
    rw [Outlet.octets, hheld hkept, List.append_nil, hunused, List.nil_append] at hall
    exact ⟨hall, h.finished hkept⟩
  sent := by
    have hcut := h.written.cut
    rwa [hunused, List.nil_append] at hcut
  carried := h.begun

/-- **However the queue is found filled, the entries in it are answered one by one.** -/
theorem delivered_dispatchAll (exec : Instant → Executor σ) (d : Desk σ ω) (hunused : Outlet.octets d.outlet = [])
    (goes : List (Instant × List Entry)) :
    Delivered exec d.state (timed goes) (d.dispatchAll exec goes).failure
      (Outlet.sent (d.dispatchAll exec goes).outlet) (d.dispatchAll exec goes).state :=
  (answers_dispatchAll exec goes d).delivered hunused
    (held_dispatchAll exec goes d (List.append_eq_nil_iff.mp hunused).2)

end Desk

/-! ### Jobs -/

namespace Move

/-- The batches that the pool is given for the entries in the queue. -/
def jobs (entries : List Entry) : List (List (List Bytes)) :=
  (forQueue entries).filterMap fun
    | .run batch => some batch
    | _ => none

theorem length_of_run_mem_plan : ∀ (entries : List Entry) {batch job : List (List Bytes)},
    batch.length < maxBatch → .run job ∈ plan batch entries → job.length ≤ maxBatch
  | [], batch, job, hb, h => by
    obtain rfl : job = batch := by simpa [plan] using h
    exact Nat.le_of_lt hb
  | .ready reply :: entries, batch, job, hb, h => by
    rw [plan, List.mem_cons, List.mem_cons] at h
    rcases h with h | h | h
    · cases h
      exact Nat.le_of_lt hb
    · cases h
    · exact length_of_run_mem_plan entries (by decide) h
  | .request args :: entries, batch, job, hb, h => by
    rw [plan] at h
    split at h
    · next hlt => exact length_of_run_mem_plan entries hlt h
    · rw [List.mem_cons, List.mem_cons] at h
      rcases h with h | h | h
      · cases h
        rw [List.length_append]
        exact hb
      · cases h
      · split at h
        · cases h
        · exact length_of_run_mem_plan entries (by decide) h

theorem length_of_mem_jobs {entries : List Entry} {job : List (List Bytes)} (h : job ∈ jobs entries) :
    job.length ≤ maxBatch := by
  obtain ⟨move, hmove, hjob⟩ := List.mem_filterMap.mp h
  cases move with
  | run batch =>
    cases hjob
    unfold forQueue at hmove
    split at hmove
    · cases hmove
    · exact length_of_run_mem_plan entries (by decide) hmove
  | send => cases hjob
  | flush => cases hjob

end Move
end Keyspace
