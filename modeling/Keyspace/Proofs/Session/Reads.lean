/-
# The reads of a session

The reader takes what arrives in reads, as the buffer has room, frames what waits after each, and stops when a read
ends it or there is nothing more to read. `Session.receive` and `Session.play` tell which reads they made. These
are the reads that were counted (`Queues`), a front part of the octets that came, and what the session queued is
what `Framing.readAll` makes of them (`stops_play`). That says neither how large the reads were nor where the
dispatcher worked in between, so both may be anything.

`Reads` is about a reader that goes on, `Stops` about one that has stopped. What follows a stretch of reads
is read as if it came alone, behind the octets left over (`goOn`).

Key definitions: `Framing.Waits`, `Framing.Made`, `Session.Reads`, `Session.Stops`.
Key theorems: `Stops.readAll_cut`, `Reads.stops`, `queues_read`, `stops_receive`, `stops_play`.
-/
import Keyspace.Proofs.Session.Queueing
import Keyspace.Proofs.Session.Transcript

namespace Keyspace

/-- The octets that arrive. -/
def Happening.octets : Happening → Bytes
  | .arrival data => data
  | _ => []

/-- The octets that arrive, up to where reading fails. -/
def Happening.heard : List Happening → Bytes
  | [] => []
  | .breakdown _ :: _ => []
  | h :: happenings => h.octets ++ heard happenings

/-! ### Reading on -/

namespace Framing
variable {pending data : Bytes} {reads more : List Bytes} {e : SessionError}

/-- What comes of some reads, and of later ones if there was no error. -/
def goOn (entries : List Entry) (result : Except SessionError Unit)
    (later : List Entry × Except SessionError Unit) : List Entry × Except SessionError Unit :=
  match result with
  | .ok () => (entries ++ later.1, later.2)
  | .error e => (entries, .error e)

theorem goOn_goOn (entries entries' : List Entry) (result : Except SessionError Unit)
    (later : List Entry × Except SessionError Unit) :
    goOn entries (.ok ()) (goOn entries' result later) = goOn (entries ++ entries') result later := by
  cases result with
  | ok _ => simp only [goOn, List.append_assoc]
  | error e => rfl

theorem readAll_cons (pending data : Bytes) (more : List Bytes) :
    readAll pending (data :: more) =
      goOn (frame (pending ++ data)).queued
        ((frame (pending ++ data)).verdict (left (pending ++ data)).length)
        (readAll (left (pending ++ data)) more) := by
  unfold verdict
  cases h : (frame (pending ++ data)).ending (left (pending ++ data)).length with
  | none => exact readAll_of_not_ending more h
  | some e => exact readAll_of_ending more h

theorem ending_cases {f : Framing} {n : Nat} (h : f.ending n = some e) :
    e = .bufferFull ∨ ∃ fault, e = .unreadable fault := by
  unfold ending at h
  split at h
  · cases h
    exact .inr ⟨_, rfl⟩
  · split at h
    · cases h
      exact .inl rfl
    · cases h

/-- After these reads the reader waits for more: nothing but the end of the stream ends it here. -/
def Waits (pending : Bytes) (reads : List Bytes) : Prop :=
  ∀ e, (readAll pending reads).2 = .error e → e = .endInRequest

theorem waits_nil (pending : Bytes) : Waits pending [] := by
  intro e h
  simp only [readAll, atEnd] at h
  split at h
  · cases h
  · exact (Except.error.inj h).symm

/-- A reader that still waits has waited after each read. -/
theorem Waits.front : ∀ {front : List Bytes} {pending : Bytes}, Waits pending (front ++ more) → Waits pending front
  | [], pending, _ => waits_nil pending
  | data :: front, pending, h => by
    intro e he
    rw [List.cons_append] at h
    cases hend : (frame (pending ++ data)).ending (left (pending ++ data)).length with
    | none =>
      rw [readAll_of_not_ending front hend] at he
      have hlater : Waits (left (pending ++ data)) (front ++ more) := by
        intro e' he'
        refine h e' ?_
        rw [readAll_of_not_ending (front ++ more) hend]
        exact he'
      exact Waits.front hlater e he
    | some e' =>
      rw [readAll_of_ending front hend] at he
      refine h e ?_
      rw [readAll_of_ending (front ++ more) hend]
      exact he

/-- A reader that does not wait any more ignores what comes. -/
theorem readAll_of_not_waits : ∀ {reads : List Bytes} {pending : Bytes}, ¬ Waits pending reads →
    readAll pending (reads ++ more) = readAll pending reads
  | [], pending, h => absurd (waits_nil pending) h
  | data :: reads, pending, h => by
    rw [List.cons_append]
    cases hend : (frame (pending ++ data)).ending (left (pending ++ data)).length with
    | some e => rw [readAll_of_ending (reads ++ more) hend, readAll_of_ending reads hend]
    | none =>
      have hrest : ¬ Waits (left (pending ++ data)) reads := fun hwaits => h fun e he => by
        rw [readAll_of_not_ending reads hend] at he
        exact hwaits e he
      rw [readAll_of_not_ending (reads ++ more) hend, readAll_of_not_ending reads hend,
        readAll_of_not_waits hrest]

/-- A read that ends reading leaves nobody waiting. -/
theorem not_waits_of_ending
    (h : (frame (pending ++ data)).ending (left (pending ++ data)).length = some e) : ¬ Waits pending [data] := by
  intro hwaits
  have hstop : (readAll pending [data]).2 = .error e := by rw [readAll_of_ending [] h]
  obtain rfl := hwaits e hstop
  rcases ending_cases h with h | ⟨_, h⟩ <;> cases h

/-- These are the reads that were made of the octets that came, up to where the reader stopped with this
result. Each but the last left it waiting; after the last there was nothing more to read, the client was gone,
or what was read ended it. -/
structure Made (pending data : Bytes) (result : Except SessionError Unit) (reads : List Bytes) : Prop where
  nonempty : ∀ read ∈ reads, read ≠ []
  front : reads.flatten <+: data
  waits : Waits pending reads.dropLast
  last : reads.flatten = data ∨ result = .error .clientGone ∨ ¬ Waits pending reads

end Framing

namespace Session
variable {σ ω μ : Type} [Outlet ω] {exec : Instant → Executor σ} {s t u : Session σ ω μ}
  {data : Bytes} {reads : List Bytes} {queued : List Entry} {result : Except SessionError Unit}
  {e : SessionError} {r : Stretch σ ω μ}

open Framing (goOn readAll Made Waits waits_nil)

/-- From `s` to `t` the session made these reads, and waits for more. -/
structure Reads (exec : Instant → Executor σ) (s : Session σ ω μ) (reads : List Bytes) (t : Session σ ω μ) :
    Prop where
  nonempty : ∀ read ∈ reads, read ≠ []
  queues : ∃ entries, Queues exec s reads.flatten.length entries t ∧
    ∀ more, readAll s.buffer.pending (reads ++ more) = goOn entries (.ok ()) (readAll t.buffer.pending more)

/-- In this stretch from `s` on the session made reads of what was to come, and its reader has stopped. What it
queued are the entries that were read, or the first of them if the client is gone. -/
structure Stops (exec : Instant → Executor σ) (s : Session σ ω μ) (data : Bytes) (queued : List Entry)
    (r : Stretch σ ω μ) : Prop where
  made : Made s.buffer.pending data r.result r.reads
  queues : Queues exec s r.reads.flatten.length queued r.session
  front : queued <+: (readAll s.buffer.pending r.reads).1
  complete : r.session.gone = false → queued = (readAll s.buffer.pending r.reads).1
  gone : r.result = .error .clientGone → r.session.gone = true
  ends : r.session.gone = false → r.result = (readAll s.buffer.pending r.reads).2 ∨
    ∃ cause, r.result = .error (.broken cause)

theorem reads_nil (hqueues : Queues exec s 0 [] t) (hpending : t.buffer.pending = s.buffer.pending) :
    Reads exec s [] t where
  nonempty := nofun
  queues := ⟨[], hqueues, fun _ => by rw [hpending]; rfl⟩

theorem reads_drain (exec : Instant → Executor σ) (s : Session σ ω μ) : Reads exec s [] (s.drain exec) :=
  reads_nil (queues_drain s) rfl

/-- A reader that ends without another read has read what there was. -/
theorem stops_nil (s : Session σ ω μ) {result : Except SessionError Unit}
    (hresult : result = Framing.atEnd s.buffer.pending ∨ ∃ cause, result = .error (.broken cause)) :
    Stops exec s [] [] ⟨[], result, s⟩ where
  made := ⟨nofun, List.nil_prefix, waits_nil _, .inl rfl⟩
  queues := queues_refl s
  front := List.nil_prefix
  complete := fun _ => rfl
  gone := fun h => by
    rcases hresult with hend | ⟨cause, hbroken⟩
    · rw [show result = _ from h, Framing.atEnd] at hend
      split at hend <;> cases hend
    · rw [show result = _ from h] at hbroken
      cases hbroken
  ends := fun _ => hresult

/-- The reads that were made and what was left unread are a cut of what came, and are read as the session did. -/
theorem Stops.readAll_cut (h : Stops exec s data queued r) (hgone : r.session.gone = false)
    (hsound : ∀ cause, r.result ≠ .error (.broken cause)) :
    ∃ cut : List Bytes, cut.flatten = data ∧ readAll s.buffer.pending cut = (queued, r.result) := by
  have hmade : readAll s.buffer.pending r.reads = (queued, r.result) := by
    rcases h.ends hgone with hresult | ⟨cause, hbroken⟩
    · rw [h.complete hgone, hresult]
    · exact absurd hbroken (hsound cause)
  rcases h.made.last with hall | hlost | hended
  · exact ⟨r.reads, hall, hmade⟩
  · have hkept := h.gone hlost
    rw [hgone] at hkept
    cases hkept
  · obtain ⟨rest, hrest⟩ := h.made.front
    refine ⟨r.reads ++ [rest], ?_, ?_⟩
    · rw [List.flatten_append, List.flatten_singleton, hrest]
    · rw [Framing.readAll_of_not_waits hended, hmade]

theorem Reads.waits (h : Reads exec s reads t) : Waits s.buffer.pending reads := by
  obtain ⟨entries, -, hread⟩ := h.queues
  intro e he
  rw [← List.append_nil reads, hread] at he
  exact waits_nil t.buffer.pending e he

theorem Reads.waits_append (h : Reads exec s reads t) (more : List Bytes) :
    Waits s.buffer.pending (reads ++ more) ↔ Waits t.buffer.pending more := by
  obtain ⟨entries, -, hread⟩ := h.queues
  unfold Waits
  rw [hread]
  rfl

theorem Reads.trans {reads' : List Bytes} (h : Reads exec s reads t) (h' : Reads exec t reads' u) :
    Reads exec s (reads ++ reads') u where
  nonempty := fun read hr => (List.mem_append.1 hr).elim (h.nonempty read) (h'.nonempty read)
  queues := by
    obtain ⟨entries, hqueues, hread⟩ := h.queues
    obtain ⟨entries', hqueues', hread'⟩ := h'.queues
    refine ⟨entries ++ entries', ?_, fun more => ?_⟩
    · rw [List.flatten_append, List.length_append]
      exact hqueues.trans hqueues'
    · rw [List.append_assoc, hread, hread', Framing.goOn_goOn]

/-- Reads made later, each but the last of which left the reader waiting, follow those that came before. -/
theorem Reads.made {later : List Bytes} (h : Reads exec s reads t) (h' : Made t.buffer.pending data result later) :
    Made s.buffer.pending (reads.flatten ++ data) result (reads ++ later) where
  nonempty := fun read hr => (List.mem_append.1 hr).elim (h.nonempty read) (h'.nonempty read)
  front := by
    rw [List.flatten_append]
    exact (List.prefix_append_right_inj _).mpr h'.front
  waits := by
    cases later with
    | nil =>
      rw [List.append_nil]
      obtain ⟨last, hlast⟩ := List.dropLast_prefix reads
      exact (hlast.symm ▸ h.waits : Waits s.buffer.pending (reads.dropLast ++ last)).front
    | cons read later =>
      rw [List.dropLast_append_of_ne_nil (List.cons_ne_nil read later)]
      exact (h.waits_append _).mpr h'.waits
  last := by
    rw [List.flatten_append, h.waits_append]
    exact h'.last.imp_left (congrArg _)

/-- Reads that came before belong to the stretch, too. -/
theorem Reads.stops (h : Reads exec s reads t) (h' : Stops exec t data queued r) :
    ∃ queued, Stops exec s (reads.flatten ++ data) queued (r.behind reads) := by
  obtain ⟨entries, hqueues, hread⟩ := h.queues
  have hall : readAll s.buffer.pending (reads ++ r.reads) =
      (entries ++ (readAll t.buffer.pending r.reads).1, (readAll t.buffer.pending r.reads).2) := hread r.reads
  refine ⟨entries ++ queued, h.made h'.made, ?_, ?_, fun hkept => ?_, h'.gone, fun hkept => ?_⟩
  · rw [Stretch.behind, List.flatten_append, List.length_append]
    exact hqueues.trans h'.queues
  · rw [Stretch.behind, hall]
    exact (List.prefix_append_right_inj entries).mpr h'.front
  · rw [Stretch.behind, hall, h'.complete hkept]
  · rw [Stretch.behind, hall]
    exact h'.ends hkept

theorem Reads.stops_later (h : Reads exec s [] t) (h' : ∃ queued, Stops exec t data queued r) :
    ∃ queued, Stops exec s data queued r := by
  obtain ⟨queued, hstops⟩ := h'
  exact h.stops hstops

/-! ### One read -/

variable [Memory μ]

omit [Outlet ω] in
theorem pending_read (s : Session σ ω μ) (data : Bytes) :
    (s.read data).buffer.pending = s.buffer.pending ++ data := congrArg (· ++ data) s.buffer.pending_makeRoom

theorem queues_counted (s : Session σ ω μ) (data : Bytes) : Queues exec s data.length [] (s.read data) :=
  queues_nothing rfl rfl rfl

/-- One read: the octets are counted and framed behind those in the buffer. -/
theorem queues_read (hframe : (s.read data).frame exec = (result, t)) (h : result = .ok () ∨ t.gone = false) :
    ∃ entries, Queues exec s data.length entries t ∧
      ∀ more, readAll s.buffer.pending (data :: more) = goOn entries result (readAll t.buffer.pending more) := by
  obtain ⟨hframed, hleft, hresult⟩ := queues_frame exec (s := s.read data) (by rwa [hframe])
  rw [hframe, pending_read] at hframed hleft hresult
  refine ⟨_, (queues_counted s data).trans hframed, fun more => ?_⟩
  rw [List.nil_append, Framing.readAll_cons, ← hresult, ← hleft]

/-- One read, also where its entries are refused. -/
theorem begins_read (hframe : (s.read data).frame exec = (result, t)) :
    ∃ queued, Queues exec s data.length queued t ∧ queued <+: (readAll s.buffer.pending [data]).1 := by
  obtain ⟨queued, hfront, hqueues⟩ := begins_frame exec (s.read data)
  rw [pending_read] at hfront
  rw [hframe] at hqueues
  refine ⟨queued, (queues_counted s data).trans hqueues, ?_⟩
  rw [Framing.readAll_cons]
  refine hfront.trans ?_
  unfold goOn
  split
  · exact List.prefix_append _ _
  · exact List.prefix_refl _

theorem reads_read (hdata : data ≠ []) (hframe : (s.read data).frame exec = (.ok (), t)) :
    Reads exec s [data] t where
  nonempty := fun _ hr => List.mem_singleton.1 hr ▸ hdata
  queues := by
    rw [List.flatten_singleton]
    exact queues_read hframe (.inl rfl)

/-- A read that ends reading, with more to come or not. What ends it are its octets, or a client that is gone. -/
theorem stops_read (hdata : data ≠ []) (hframe : (s.read data).frame exec = (.error e, t)) (more : Bytes) :
    ∃ queued, Stops exec s (data ++ more) queued ⟨[data], .error e, t⟩ := by
  have hcause := frame_error (e := e) (congrArg Prod.fst hframe)
  rw [hframe, pending_read] at hcause
  have hmade : Made s.buffer.pending (data ++ more) (.error e) [data] :=
    ⟨fun _ hr => List.mem_singleton.1 hr ▸ hdata, by simp, waits_nil _,
      .inr (hcause.imp (fun h => congrArg _ h.1) Framing.not_waits_of_ending)⟩
  have hlost : (.error e : Except SessionError Unit) = .error .clientGone → t.gone = true := by
    intro h
    cases h
    rcases hcause with ⟨-, hgone⟩ | hend
    · exact hgone
    · rcases Framing.ending_cases hend with h | ⟨_, h⟩ <;> cases h
  have hlength : [data].flatten.length = data.length := by rw [List.flatten_singleton]
  cases hgone : t.gone with
  | false =>
    obtain ⟨entries, hqueues, hread⟩ := queues_read hframe (.inr hgone)
    have hall : readAll s.buffer.pending [data] = (entries, .error e) := hread []
    refine ⟨entries, hmade, hlength ▸ hqueues, ?_, fun _ => ?_, hlost, fun _ => .inl ?_⟩
    · exact hall ▸ List.prefix_refl entries
    · rw [hall]
    · rw [hall]
  | true =>
    obtain ⟨queued, hqueues, hfront⟩ := begins_read hframe
    have hkept : t.gone ≠ false := by rw [hgone]; nofun
    exact ⟨queued, hmade, hlength ▸ hqueues, hfront, fun h => absurd h hkept, hlost, fun h => absurd h hkept⟩

/-! ### All reads -/

/-- The first of the octets that came, as many as there is room for, are a read. -/
theorem take_room_ne_nil (b : ReadBuffer μ) (hdata : data ≠ []) : data.take b.makeRoom.room ≠ [] := by
  rw [ne_eq, List.take_eq_nil_iff, not_or]
  exact ⟨Nat.ne_of_gt b.room_makeRoom_pos, hdata⟩

theorem reads_receive (exec : Instant → Executor σ) (s : Session σ ω μ) (data : Bytes)
    (h : (s.receive exec data).result = .ok ()) :
    (s.receive exec data).reads.flatten = data ∧
      Reads exec s (s.receive exec data).reads (s.receive exec data).session := by
  fun_induction receive exec s data with
  | case1 s => exact ⟨rfl, reads_nil (queues_refl s) rfl⟩
  | case2 s data _ n e t hframe => cases h
  | case3 s data hdata n t hframe ih =>
    obtain ⟨hcut, hreads⟩ := ih h
    refine ⟨?_, (reads_read (take_room_ne_nil s.buffer hdata) hframe).trans hreads⟩
    rw [Stretch.behind, List.singleton_append, List.flatten_cons, hcut, List.take_append_drop]

theorem stops_receive (exec : Instant → Executor σ) (s : Session σ ω μ) (data more : Bytes)
    (h : (s.receive exec data).result = .error e) :
    ∃ queued, Stops exec s (data ++ more) queued (s.receive exec data) := by
  fun_induction receive exec s data with
  | case1 s => cases h
  | case2 s data hdata n e' t hframe =>
    have hstops := stops_read (take_room_ne_nil s.buffer hdata) hframe (data.drop n ++ more)
    rwa [← List.append_assoc, List.take_append_drop] at hstops
  | case3 s data hdata n t hframe ih =>
    obtain ⟨queued, hstops⟩ := ih h
    have hall := (reads_read (take_room_ne_nil s.buffer hdata) hframe).stops hstops
    rwa [List.flatten_singleton, ← List.append_assoc, List.take_append_drop] at hall

/-- **The reader makes its reads until one of them, or the end, stops it.** It counts them, and it queues what they
are read as. -/
theorem stops_play (exec : Instant → Executor σ) : ∀ (happenings : List Happening) (s : Session σ ω μ),
    ∃ queued, Stops exec s (Happening.heard happenings) queued (s.play exec happenings)
  | [], s => ⟨[], stops_nil s (.inl rfl)⟩
  | .arrival data :: happenings, s => by
    have hreads := reads_receive exec s data
    have hstops := fun e => stops_receive (e := e) exec s data (Happening.heard happenings)
    simp only [play]
    generalize s.receive exec data = received at hreads hstops ⊢
    obtain ⟨reads, result, t⟩ := received
    cases result with
    | ok _ =>
      obtain ⟨rfl, hread⟩ := hreads rfl
      obtain ⟨queued, hrest⟩ := stops_play exec happenings t
      exact hread.stops hrest
    | error e => exact hstops e rfl
  | .delay nanos :: happenings, s => by
    refine Reads.stops_later ?_ (stops_play exec happenings _)
    exact reads_nil (queues_nothing rfl rfl rfl) rfl
  | .untilSent n :: happenings, s => by
    refine Reads.stops_later ?_ (stops_play exec happenings _)
    split
    · exact reads_drain exec s
    · exact reads_nil (queues_refl s) rfl
  | .untilFailed :: happenings, s => by
    refine Reads.stops_later ?_ (stops_play exec happenings _)
    split
    · exact reads_nil (queues_refl s) rfl
    · exact reads_drain exec s
  | .breakdown cause :: _, s => ⟨[], stops_nil s (.inr ⟨cause, rfl⟩)⟩

end Session
end Keyspace
