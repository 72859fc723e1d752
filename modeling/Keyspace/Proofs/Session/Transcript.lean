/-
# The transcript of a stream

`Transcript w entries result` says what a whole stream `w` amounts to, request by request: each request
is an entry; so is the reply to each fault behind which the stream can be picked up, after the octets
up to there are dropped; another fault ends the stream with its reply as the last entry; and so does
the end of the octets, which is an error inside a request.

It does not mention reads. `readAll_transcript`: reading leads to the transcript of the octets read,
however they are cut.

Key definition: `Transcript`.
Key theorems: `Transcript.unique`, `Transcript.of_frame`, `readAll_transcript`.
-/
import Keyspace.Proofs.Wire.Requests
import Keyspace.Session.Reading

namespace Keyspace

open Wire

/-- A stream, the entries it is cut into, and the result of reading it to its end. -/
inductive Transcript : Bytes → List Entry → Except SessionError Unit → Prop where
  | ended : Transcript [] [] (.ok ())
  | unfinished {w : Bytes} : w ≠ [] → Request.read w = .incomplete →
      Transcript w [] (.error .endInRequest)
  | request {w : Bytes} {args : List Bytes} {n : Nat} {entries : List Entry}
      {result : Except SessionError Unit} : Request.read w = .complete args n →
      Transcript (w.drop n) entries result → Transcript w (.request args :: entries) result
  | resumed {w : Bytes} {fault : Fault} {offset : Nat} {entries : List Entry}
      {result : Except SessionError Unit} : Request.read w = .malformed fault offset →
      Request.discard fault offset ≠ 0 →
      Transcript (w.drop (Request.discard fault offset)) entries result →
      Transcript w (.ready fault.reply :: entries) result
  | lost {w : Bytes} {fault : Fault} {offset : Nat} : Request.read w = .malformed fault offset →
      Request.discard fault offset = 0 →
      Transcript w [.ready fault.reply] (.error (.unreadable fault))

namespace Framing

/-- The result of a stream that was framed as a whole, with `rest` left over. -/
def result (f : Framing) (rest : Bytes) : Except SessionError Unit :=
  match f.fatal with
  | some fault => .error (.unreadable fault)
  | none => if rest = [] then .ok () else .error .endInRequest

end Framing

namespace Transcript

variable {w ext : Bytes} {entries entries' : List Entry} {result result' : Except SessionError Unit}

/-- The transcript is what framing the whole stream at once gives. -/
theorem eq_frame (h : Transcript w entries result) :
    entries = (Framing.frame w).queued ∧
    result = (Framing.frame w).result (w.drop (Framing.frame w).used) := by
  induction h with
  | ended => rw [Framing.frame_of_incomplete Request.read_nil]; exact ⟨rfl, rfl⟩
  | unfinished hne hr =>
    rw [Framing.frame_of_incomplete hr]
    exact ⟨rfl, (if_neg hne).symm⟩
  | request hr _ ih =>
    rw [Framing.frame_of_complete hr]
    exact ⟨congrArg (_ :: ·) ih.1, ih.2.trans (by rw [List.drop_drop]; rfl)⟩
  | resumed hr hd _ ih =>
    rw [Framing.frame_of_malformed hr, if_neg hd]
    exact ⟨congrArg (_ :: ·) ih.1, ih.2.trans (by rw [List.drop_drop]; rfl)⟩
  | lost hr hd =>
    rw [Framing.frame_of_malformed hr, if_pos hd]
    exact ⟨rfl, rfl⟩

/-- A stream has one transcript. -/
theorem unique (h : Transcript w entries result) (h' : Transcript w entries' result') :
    entries = entries' ∧ result = result' :=
  ⟨h.eq_frame.1.trans h'.eq_frame.1.symm, h.eq_frame.2.trans h'.eq_frame.2.symm⟩

/-! ### What has been framed -/

theorem request_append {buf : Bytes} {args : List Bytes} {n : Nat} (hr : Request.read buf = .complete args n)
    (h : Transcript (buf.drop n ++ ext) entries result) :
    Transcript (buf ++ ext) (.request args :: entries) result := by
  have hr' : Request.read (buf ++ ext) = .complete args n :=
    (Request.read_final buf ext (by simp [hr])).trans hr
  refine .request hr' ?_
  rwa [List.drop_append_of_le_length (Request.read_bounded _ _ _ hr)]

theorem resumed_append {buf : Bytes} {fault : Fault} {offset : Nat}
    (hr : Request.read buf = .malformed fault offset) (hd : Request.discard fault offset ≠ 0)
    (h : Transcript (buf.drop (Request.discard fault offset) ++ ext) entries result) :
    Transcript (buf ++ ext) (.ready fault.reply :: entries) result := by
  have hr' : Request.read (buf ++ ext) = .malformed fault offset :=
    (Request.read_final buf ext (by simp [hr])).trans hr
  refine .resumed hr' hd ?_
  rwa [List.drop_append_of_le_length (Request.discard_le hr)]

/-- A fatal fault ends the stream, whatever would follow. -/
theorem of_fatal {buf : Bytes} {fault : Fault} (h : (Framing.frame buf).fatal = some fault) (ext : Bytes) :
    Transcript (buf ++ ext) (Framing.frame buf).queued (.error (.unreadable fault)) := by
  fun_induction Framing.frame buf with
  | case1 buf hr => cases h
  | case2 buf args n hr ih => exact request_append hr (ih h)
  | case3 buf fault' offset hr hd =>
    cases h
    exact .lost ((Request.read_final buf ext (by simp [hr])).trans hr) hd
  | case4 buf fault' offset hr hd ih => exact resumed_append hr hd (ih h)

/-- Without a fatal fault the transcript goes on with the octets that are left and those that follow. -/
theorem of_frame {buf : Bytes} (h : (Framing.frame buf).fatal = none)
    (hrest : Transcript (buf.drop (Framing.frame buf).used ++ ext) entries result) :
    Transcript (buf ++ ext) ((Framing.frame buf).queued ++ entries) result := by
  fun_induction Framing.frame buf with
  | case1 buf hr => exact hrest
  | case2 buf args n hr ih =>
    refine request_append hr (ih h ?_)
    rwa [List.drop_drop]
  | case3 => cases h
  | case4 buf fault' offset hr hd ih =>
    refine resumed_append hr hd (ih h ?_)
    rwa [List.drop_drop]

/-- What is left then is an incomplete request. -/
theorem read_rest {buf : Bytes} (h : (Framing.frame buf).fatal = none) :
    Request.read (buf.drop (Framing.frame buf).used) = .incomplete := by
  fun_induction Framing.frame buf with
  | case1 buf hr => exact hr
  | case2 buf args n hr ih =>
    have hrest := ih h
    rwa [List.drop_drop] at hrest
  | case3 => cases h
  | case4 buf fault' offset hr hd ih =>
    have hrest := ih h
    rwa [List.drop_drop] at hrest

end Transcript

namespace Framing

variable {pending data : Bytes}

theorem readAll_of_ending {e : SessionError} (reads : List Bytes)
    (h : (frame (pending ++ data)).ending (left (pending ++ data)).length = some e) :
    readAll pending (data :: reads) = ((frame (pending ++ data)).queued, .error e) := by
  simp only [readAll, h]

theorem readAll_of_not_ending (reads : List Bytes)
    (h : (frame (pending ++ data)).ending (left (pending ++ data)).length = none) :
    readAll pending (data :: reads) =
      ((frame (pending ++ data)).queued ++ (readAll (left (pending ++ data)) reads).1,
        (readAll (left (pending ++ data)) reads).2) := by
  simp only [readAll, h]

/-- **Reading leads to the transcript**, however the octets are cut into reads. Those that wait are the
beginning of a request, and all that comes together keeps below the limit. -/
theorem readAll_transcript : ∀ (reads : List Bytes) {pending : Bytes},
    Request.read pending = .incomplete → (pending ++ reads.flatten).length < ReadBuffer.limit →
    Transcript (pending ++ reads.flatten) (readAll pending reads).1 (readAll pending reads).2
  | [], pending, hr, _ => by
    rw [List.flatten_nil, List.append_nil, readAll, atEnd]
    split
    · next hempty => exact hempty ▸ .ended
    · next hne => exact .unfinished hne hr
  | data :: reads, pending, hr, hlimit => by
    have hcut : pending ++ (data :: reads).flatten = (pending ++ data) ++ reads.flatten := by simp
    rw [hcut] at hlimit ⊢
    cases hf : (frame (pending ++ data)).fatal with
    | some fault =>
      rw [readAll_of_ending (e := .unreadable fault) reads (by simp [ending, hf])]
      exact .of_fatal hf reads.flatten
    | none =>
      have hleft : (left (pending ++ data)).length ≤ (pending ++ data).length := by simp [left]
      have hsmall : ¬ ReadBuffer.limit ≤ (left (pending ++ data)).length := by
        rw [List.length_append] at hlimit
        omega
      have hgoes : (frame (pending ++ data)).ending (left (pending ++ data)).length = none := by
        rw [ending, hf]
        exact if_neg hsmall
      have hrest : (left (pending ++ data) ++ reads.flatten).length < ReadBuffer.limit := by
        rw [List.length_append] at hlimit ⊢
        omega
      rw [readAll_of_not_ending reads hgoes]
      exact .of_frame hf (readAll_transcript reads (Transcript.read_rest hf) hrest)

end Framing
end Keyspace
