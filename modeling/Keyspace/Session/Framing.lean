/-
# Framing a stream

The reader's half of a session cuts the octets of a client into entries for the dispatcher: requests,
and replies to what is no request. After a fault that leaves the next request in sight the octets up
to there are dropped; after any other fault the session ends.

Key definitions: `Framing.frame` takes all it can from a buffer. Each step uses octets
(`Request.read_uses`), so it ends.
-/
import Keyspace.Wire.Request

namespace Keyspace

/-- What the reader hands to the dispatcher. -/
inductive Entry where
  /-- A reply that needs no command. -/
  | ready (reply : Value)
  /-- A request to carry out. -/
  | request (args : List Bytes)

namespace Wire

/-- The reply to octets that are no request. -/
def Fault.reply (fault : Fault) : Value := .error ("ERR Protocol error: " ++ fault.message)

end Wire

/-- What a buffer was cut into. -/
structure Framing where
  entries : List Entry
  /-- How many octets the entries used. -/
  used : Nat
  /-- The fault that ends the session, if one was met behind the entries. -/
  fatal : Option Wire.Fault

namespace Framing
open Wire

/-- Nothing to be had. -/
def nothing : Framing := ⟨[], 0, none⟩

/-- Puts an entry that used `n` octets in front. -/
def cons (e : Entry) (n : Nat) (f : Framing) : Framing :=
  ⟨e :: f.entries, n + f.used, f.fatal⟩

/-- Cuts a buffer into entries, up to an incomplete request or a fatal fault. -/
def frame (buf : Bytes) : Framing :=
  match _h : Request.read buf with
  | .incomplete => nothing
  | .complete args n => cons (.request args) n (frame (buf.drop n))
  | .malformed fault offset =>
    if Request.discard fault offset = 0 then ⟨[], 0, some fault⟩
    else
      cons (.ready fault.reply) (Request.discard fault offset)
        (frame (buf.drop (Request.discard fault offset)))
termination_by buf.length
decreasing_by
  all_goals
    have hne : buf ≠ [] := by
      rintro rfl
      simp at _h
    have := List.length_pos_iff.2 hne
    simp only [List.length_drop]
  · have := Request.read_uses _h
    omega
  · omega

/-! ### One step at a time -/

theorem frame_of_incomplete {buf : Bytes} (h : Request.read buf = .incomplete) :
    frame buf = nothing := by
  rw [frame]
  split
  · rfl
  · next h' => rw [h] at h'; cases h'
  · next h' => rw [h] at h'; cases h'

theorem frame_of_complete {buf : Bytes} {args : List Bytes} {n : Nat}
    (h : Request.read buf = .complete args n) :
    frame buf = cons (.request args) n (frame (buf.drop n)) := by
  rw [frame]
  split
  · next h' => rw [h] at h'; cases h'
  · next h' => rw [h] at h'; cases h'; rfl
  · next h' => rw [h] at h'; cases h'

theorem frame_of_malformed {buf : Bytes} {fault : Fault} {offset : Nat}
    (h : Request.read buf = .malformed fault offset) :
    frame buf = if Request.discard fault offset = 0 then ⟨[], 0, some fault⟩
      else cons (.ready fault.reply) (Request.discard fault offset)
        (frame (buf.drop (Request.discard fault offset))) := by
  rw [frame]
  split
  · next h' => rw [h] at h'; cases h'
  · next h' => rw [h] at h'; cases h'
  · next h' => rw [h] at h'; cases h'; rfl

end Framing
end Keyspace
