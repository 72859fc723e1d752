/-
# Sessions frame streams

What a session queues depends on the octets alone. Its reads are some cut of what arrives (`Stops`), whatever the
room in the buffer, the pauses and the work of the dispatcher in between, and every cut is read as the transcript of
the octets. So every way in which the octets of a stream arrive leads to its transcript (`transcript_of_cuts`),
through whatever outlet the replies go.

Key theorems: `play_not_broken`, `transcript_of_cuts`.
-/
import Keyspace.Proofs.Session.Reads
import Keyspace.Proofs.Session.Steady

namespace Keyspace

theorem Happening.heard_eq : ∀ happenings : List Happening, (∀ cause, .breakdown cause ∉ happenings) →
    heard happenings = happenings.flatMap octets
  | [], _ => rfl
  | h :: happenings, hsound => by
    have hrest := heard_eq happenings fun cause hmem => hsound cause (.tail _ hmem)
    cases h with
    | breakdown cause => exact absurd List.mem_cons_self (hsound cause)
    | _ => exact congrArg (_ ++ ·) hrest

namespace Session
variable {σ ω μ : Type} [Outlet ω] [Memory μ] {exec : Instant → Executor σ}

open Framing (readAll)

/-! ### Reading that does not fail -/

theorem receive_not_broken (exec : Instant → Executor σ) (s : Session σ ω μ) (data : Bytes) (cause : String) :
    (s.receive exec data).result ≠ .error (.broken cause) := by
  fun_induction receive exec s data with
  | case1 s =>
    intro h
    cases h
  | case2 s data _ n e t hframe =>
    intro h
    obtain rfl := Except.error.inj h
    rcases frame_error (congrArg Prod.fst hframe) with ⟨h, -⟩ | hend
    · cases h
    · rcases Framing.ending_cases hend with h | ⟨_, h⟩ <;> cases h
  | case3 s data _ n t hframe ih => exact ih

/-- Reading fails only where something outside breaks. -/
theorem play_not_broken (exec : Instant → Executor σ) (cause : String) : ∀ (happenings : List Happening)
    (s : Session σ ω μ), (∀ cause, .breakdown cause ∉ happenings) →
    (s.play exec happenings).result ≠ .error (.broken cause)
  | [], s, _ => by
    intro h
    rw [play, Framing.atEnd] at h
    split at h <;> cases h
  | .arrival data :: happenings, s, hsound => by
    have hreceived := receive_not_broken exec s data cause
    have hrest := fun t : Session σ ω μ =>
      play_not_broken exec cause happenings t fun cause h => hsound cause (.tail _ h)
    simp only [play]
    generalize s.receive exec data = received at hreceived ⊢
    obtain ⟨reads, result, t⟩ := received
    cases result with
    | ok _ => exact hrest t
    | error e => exact hreceived
  | .delay _ :: happenings, _, hsound =>
    play_not_broken exec cause happenings _ fun cause h => hsound cause (.tail _ h)
  | .untilSent _ :: happenings, _, hsound =>
    play_not_broken exec cause happenings _ fun cause h => hsound cause (.tail _ h)
  | .untilFailed :: happenings, _, hsound =>
    play_not_broken exec cause happenings _ fun cause h => hsound cause (.tail _ h)
  | .breakdown broken :: _, _, hsound => absurd List.mem_cons_self (hsound broken)

/-! ### The theorem -/

/-- **How a stream is cut does not matter.** A stream that keeps below the limit of the buffer has one
transcript. Whoever reads it gets the entries and the result of that transcript from any cut, one read
of everything being one of them. So does a session in which the stream arrives in any pieces with any
pauses, with any memory for its octets and any outlet, unless reading fails or the dispatcher gives up: it queues
these entries in this order for the dispatcher, and its reader ends with this result.

The end of a stream is the end of the list of reads; a read that brings nothing may stand in the list and
changes nothing. -/
theorem transcript_of_cuts (w : Bytes) (hw : w.length < ReadBuffer.limit) :
    ∃ (entries : List Entry) (result : Except SessionError Unit),
      (∀ entries' result', Transcript w entries' result' ↔ entries' = entries ∧ result' = result) ∧
      (∀ reads : List Bytes, reads.flatten = w → readAll [] reads = (entries, result)) ∧
      ∀ {σ ω μ : Type} [Outlet ω] [Memory μ] (exec : Instant → Executor σ) (server : Server σ)
        (connection : Connection ω μ),
        connection.happenings.flatMap Happening.octets = w → (∀ cause, .breakdown cause ∉ connection.happenings) →
        let stretch := (start server connection).play exec connection.happenings
        stretch.session.gone = false → stretch.result = result ∧
          Queues exec (start server connection) stretch.reads.flatten.length entries stretch.session := by
  have hreads : ∀ reads : List Bytes, reads.flatten = w →
      Transcript w (readAll [] reads).1 (readAll [] reads).2 := by
    rintro reads rfl
    exact Framing.readAll_transcript reads Wire.Request.read_nil hw
  have hwhole := hreads [w] (List.append_nil w)
  have hsame : ∀ reads : List Bytes, reads.flatten = w → readAll [] reads = readAll [] [w] := fun reads hcut =>
    Prod.ext_iff.mpr ((hreads reads hcut).unique hwhole)
  refine ⟨_, _, fun entries' result' => ⟨fun h => h.unique hwhole, ?_⟩, hsame, ?_⟩
  · rintro ⟨rfl, rfl⟩
    exact hwhole
  · intro σ ω μ _ _ exec server connection hoctets hsound stretch hgone
    obtain ⟨queued, hstops⟩ := stops_play exec connection.happenings (start server connection)
    obtain ⟨cut, hcut, hread⟩ := hstops.readAll_cut hgone fun cause =>
      play_not_broken exec cause connection.happenings _ hsound
    rw [Happening.heard_eq _ hsound, hoctets] at hcut
    have hend : readAll [] [w] = (queued, stretch.result) := (hsame cut hcut).symm.trans hread
    rw [hend]
    exact ⟨rfl, hstops.queues⟩

/-- A fault behind which the stream is picked up, a request, and the beginning of another one, cut
anywhere; and a client that sends the two pieces and takes all replies. -/
theorem transcript_of_cuts_resumed :
    let w : Bytes := [42, 120, 13, 10, 42, 49, 13, 10, 36, 49, 13, 10, 97, 13, 10, 42, 49]
    let entries : List Entry := [.ready (Wire.Fault.reply .invalidCount), .request [[97]]]
    ∀ k, readAll [] [w.take k, w.drop k] = (entries, .error .endInRequest) ∧
      ∀ {σ : Type} (exec : Instant → Executor σ) (server : Server σ),
        let visit : Visit := ⟨none, [.arrival (w.take k), .untilSent 5, .arrival (w.drop k)]⟩
        let stretch := (start server visit.connection).play exec visit.happenings
        stretch.result = .error .endInRequest ∧
        Queues exec (start server visit.connection) stretch.reads.flatten.length entries stretch.session := by
  intro w entries k
  have hfault : Wire.Request.read w = .malformed .invalidCount 4 := by decide
  have hrequest : Wire.Request.read (w.drop 4) = .complete [[97]] 11 := by decide
  have htranscript : Transcript w entries (.error .endInRequest) :=
    .resumed hfault (by decide) (.request hrequest (.unfinished (by decide) (by decide)))
  obtain ⟨_, _, hunique, hreads, hsessions⟩ := transcript_of_cuts w (by decide)
  obtain ⟨rfl, rfl⟩ := (hunique _ _).mp htranscript
  refine ⟨hreads _ (by simp), fun exec server => ?_⟩
  refine hsessions exec server (Visit.connection _) ?_ (by simp [Visit.connection])
    (gone_of_steady exec server Pipe.steady_fresh)
  simp [Happening.octets, Visit.connection]

end Session
end Keyspace
