/-
# Framing ends

Framing takes turns: each makes an entry and drops octets from the front of the buffer, at least one and no more
than there are, whatever the octets are. So there are no more turns than octets (`Turns.length_le`), and framing
comes to an incomplete request or to a fault after which nothing can be found. A turn would drop no more than is
left even if a fault asked for more; no fault does, so it is `Framing.frame` that the turns arrive at
(`turns_frame`, `Turns.eq_frame`).

Key definitions: `Framing.turn?`, `Framing.Turns`.
Key theorems: `Turns.length_le`, `turns_frame`, `Turns.eq_frame`, `framing_ends`.
-/
import Keyspace.Proofs.Wire.Faults
import Keyspace.Session.Framing

namespace Keyspace
namespace Framing

open Wire

/-- One turn of framing: the entry, and what is left of the buffer. There is none on an incomplete request, nor
after a fault that drops nothing. -/
def turn? (buf : Bytes) : Option (Entry × Bytes) :=
  match Request.read buf with
  | .incomplete => none
  | .complete args n => some (.request args, buf.drop n)
  | .malformed fault offset =>
    if Request.discard fault offset = 0 then none
    else some (.ready fault.reply, buf.drop (min (Request.discard fault offset) buf.length))

/-- Turns that follow one another, with their entries and what they leave. -/
inductive Turns : Bytes → List Entry → Bytes → Prop where
  | done {buf : Bytes} : Turns buf [] buf
  | turn {buf rest last : Bytes} {e : Entry} {es : List Entry} :
      turn? buf = some (e, rest) → Turns rest es last → Turns buf (e :: es) last

variable {buf rest last : Bytes} {e : Entry} {es : List Entry}

/-! ### One turn -/

theorem min_discard {fault : Fault} {offset : Nat} (h : Request.read buf = .malformed fault offset) :
    min (Request.discard fault offset) buf.length = Request.discard fault offset :=
  Nat.min_eq_left (Request.discard_le h)

/-- A turn is one step of framing, and drops something. -/
theorem frame_of_turn (h : turn? buf = some (e, rest)) :
    ∃ n, 0 < n ∧ n ≤ buf.length ∧ rest = buf.drop n ∧ frame buf = cons e n (frame rest) := by
  unfold turn? at h
  split at h
  · cases h
  · next args n hread =>
    cases h
    exact ⟨n, Request.read_uses hread, Request.read_bounded _ _ _ hread, rfl, frame_of_complete hread⟩
  · next fault offset hread =>
    split at h
    · cases h
    · next hdiscard =>
      rw [min_discard hread] at h
      cases h
      exact ⟨_, Nat.pos_of_ne_zero hdiscard, Request.discard_le hread, rfl,
        (frame_of_malformed hread).trans (if_neg hdiscard)⟩

/-- Where there is no turn, framing takes nothing. -/
theorem frame_of_no_turn (h : turn? buf = none) : (frame buf).entries = [] ∧ (frame buf).used = 0 := by
  unfold turn? at h
  split at h
  · next hread =>
    rw [frame_of_incomplete hread]
    exact ⟨rfl, rfl⟩
  · cases h
  · next fault offset hread =>
    split at h
    · next hdiscard =>
      rw [frame_of_malformed hread, if_pos hdiscard]
      exact ⟨rfl, rfl⟩
    · cases h

theorem length_of_turn (h : turn? buf = some (e, rest)) : rest.length < buf.length := by
  obtain ⟨n, hpos, hle, rfl, -⟩ := frame_of_turn h
  rw [List.length_drop]
  omega

/-! ### All turns -/

/-- There are no more turns than octets that they drop. -/
theorem Turns.length_le (h : Turns buf es last) : es.length + last.length ≤ buf.length := by
  induction h with
  | done => exact Nat.le_of_eq (Nat.zero_add _)
  | turn hturn _ ih =>
    have hlt := length_of_turn hturn
    rw [List.length_cons]
    omega

/-- Turns up to the end are what framing comes to. -/
theorem Turns.eq_frame (h : Turns buf es last) (hend : turn? last = none) :
    es = (frame buf).entries ∧ last = buf.drop (frame buf).used := by
  induction h with
  | done =>
    obtain ⟨hentries, hused⟩ := frame_of_no_turn hend
    rw [hentries, hused]
    exact ⟨rfl, rfl⟩
  | turn hturn _ ih =>
    obtain ⟨n, -, -, rfl, hframe⟩ := frame_of_turn hturn
    obtain ⟨hentries, hlast⟩ := ih hend
    rw [hframe, hlast, hentries, List.drop_drop]
    exact ⟨rfl, rfl⟩

/-- Framing takes all its turns. -/
theorem turns_frame (buf : Bytes) :
    Turns buf (frame buf).entries (buf.drop (frame buf).used) ∧ turn? (buf.drop (frame buf).used) = none := by
  cases hturn : turn? buf with
  | none =>
    obtain ⟨hentries, hused⟩ := frame_of_no_turn hturn
    rw [hentries, hused]
    exact ⟨.done, hturn⟩
  | some next =>
    obtain ⟨e, rest⟩ := next
    have hlt := length_of_turn hturn
    obtain ⟨hrest, hend⟩ := turns_frame rest
    obtain ⟨n, -, -, rfl, hframe⟩ := frame_of_turn hturn
    rw [hframe]
    simp only [cons, ← List.drop_drop]
    exact ⟨.turn hturn hrest, hend⟩
termination_by buf.length

/-! ### The theorem -/

/-- **Framing always gets on, inside the buffer, and ends.** A request uses at least one octet and no more than
there are. A fault drops nothing exactly when nothing can be found after it; any other drops at least one octet
and no more than there are, up to the place where it is noticed. Turns never number more than the octets, and
they lead to where there is no further turn, which is where framing arrives. -/
theorem framing_ends (buf : Bytes) :
    (∀ args n, Request.read buf = .complete args n → 0 < n ∧ n ≤ buf.length) ∧
    (∀ fault offset, Request.read buf = .malformed fault offset →
      let dropped := Request.discard fault offset
      (dropped = 0 ↔ ∃ lost, Request.Lost buf lost) ∧
      (dropped ≠ 0 → 0 < dropped ∧ dropped ≤ buf.length ∧
        Request.Broken (buf.take dropped) (buf.drop dropped) fault) ∧
      min dropped buf.length = dropped) ∧
    (∀ es last, Turns buf es last → es.length + last.length ≤ buf.length ∧
      (turn? last = none → es = (frame buf).entries ∧ last = buf.drop (frame buf).used)) ∧
    Turns buf (frame buf).entries (buf.drop (frame buf).used) ∧ turn? (buf.drop (frame buf).used) = none := by
  refine ⟨fun args n h => ⟨Request.read_uses h, Request.read_bounded _ _ _ h⟩, fun fault offset h => ?_,
    fun es last h => ⟨h.length_le, h.eq_frame⟩, turns_frame buf⟩
  exact ⟨Request.discard_eq_zero_iff h, fun hne => ⟨Nat.pos_of_ne_zero hne, Request.discard_le h,
    Request.broken_of_discard h hne⟩, min_discard h⟩

/-- A bulk without its end, with the front of a request behind it, and an octet that opens no request. -/
theorem framing_ends_missing_end :
    let buf : Bytes := [42, 49, 13, 10, 36, 49, 13, 10, 97, 98, 99, 42]
    Request.read buf = .malformed .missingTerminator 9 ∧
    Request.Broken (buf.take 9) (buf.drop 9) .missingTerminator ∧ (¬ ∃ lost, Request.Lost buf lost) ∧
    (frame buf).entries.length + (buf.drop (frame buf).used).length ≤ 12 ∧ ∃ lost, Request.Lost [43] lost := by
  intro buf
  have hread : Request.read buf = .malformed .missingTerminator 9 := by decide
  have hplus : Request.read [43] = .malformed (.expectedArray 43) 0 := by decide
  obtain ⟨-, hfault, hturns, hframe, -⟩ := framing_ends buf
  obtain ⟨hlost, hbroken, -⟩ := hfault _ _ hread
  exact ⟨hread, (hbroken (by decide)).2.2, fun h => absurd (hlost.mpr h) (by decide), (hturns _ _ hframe).1,
    ((framing_ends [43]).2.1 _ _ hplus).1.mp rfl⟩

end Framing
end Keyspace
