/-
# The two readers agree on requests

A request has the octets of a reply: an array of bulks. `Request.read` and `Reply.read` are put together
differently, each with its own checks in its own order, and are called by different ends of a connection. On
requests they agree, octet by octet: whatever is framed as a request decodes as an array of its arguments, and
uses as much of the buffer (`requests_are_replies`).

The two grammars meet in the elements. What spells an argument spells a bulk, or the null value for an
argument left out (`sequence_of_arguments`), and what spells a bulk spells an argument
(`arguments_of_sequence`). The null value does not come back: a reply may also spell it as an array of length
-1, which is no argument.

Key theorems: `sequence_of_arguments`, `arguments_of_sequence`, `requests_are_replies`.
-/
import Keyspace.Proofs.Wire.Replies
import Keyspace.Proofs.Wire.Requests

namespace Keyspace

/-- The value as an argument: the octets of a bulk, and none for anything else. -/
def Value.asArgument (v : Value) : Bytes := v.data?.getD []

namespace Wire
namespace Reply

open Reader Decimal Request

variable {octets : Bytes} {args : List Bytes} {vs : List Value} {p : Bytes → Value → Prop}

/-- The octets of arguments are those of as many bulks and null values. -/
theorem sequence_of_arguments (h : Sequence Argument octets args) :
    ∃ vs, Sequence (Form p) octets vs ∧ vs.length = args.length ∧
      (∀ v ∈ vs, v = .null ∨ ∃ data, v = .bulk data) ∧ vs.map Value.asArgument = args := by
  induction h with
  | nil => exact ⟨[], .nil, rfl, nofun, rfl⟩
  | @cons xs ys arg args hfirst _ ih =>
    obtain ⟨vs, hvs, hlength, hkinds, hargs⟩ := ih
    have hcons : ∀ v : Value, Form p xs v → (v = .null ∨ ∃ data, v = .bulk data) → v.asArgument = arg →
        ∃ vs, Sequence (Form p) (xs ++ ys) vs ∧ vs.length = (arg :: args).length ∧
          (∀ v ∈ vs, v = .null ∨ ∃ data, v = .bulk data) ∧ vs.map Value.asArgument = arg :: args := by
      intro v hv hkind harg
      refine ⟨v :: vs, .cons hv hvs, congrArg (· + 1) hlength, ?_, ?_⟩
      · exact List.forall_mem_cons.mpr ⟨hkind, hkinds⟩
      · rw [List.map_cons, harg, hargs]
    cases hfirst with
    | bulk hdata hle => exact hcons (.bulk arg) (.bulk hdata hle) (.inr ⟨arg, rfl⟩) rfl
    | null hlength => exact hcons .null (.nullBulk hlength) (.inl rfl) rfl

/-- The octets of bulks are those of the arguments they hold. -/
theorem arguments_of_sequence (h : Sequence (Form p) octets vs) (hbulks : ∀ v ∈ vs, ∃ data, v = .bulk data) :
    Sequence Argument octets (vs.map Value.asArgument) := by
  induction h with
  | nil => exact .nil
  | cons hfirst _ ih =>
    obtain ⟨⟨data, rfl⟩, hrest⟩ := List.forall_mem_cons.mp hbulks
    cases hfirst with
    | bulk hdata hle => exact .cons (.bulk hdata hle) (ih hrest)

/-- The octets of a request are those of an array, with room for one level or more. -/
theorem spelled_of_framed {room : Nat} (h : Framed octets args) :
    ∃ vs, Spelled (room + 2) octets (.array vs) ∧ vs.length = args.length ∧
      (∀ v ∈ vs, v = .null ∨ ∃ data, v = .bulk data) ∧ vs.map Value.asArgument = args := by
  cases h with
  | array hcount hle hargs =>
    obtain ⟨vs, hvs, hlength, hkinds, hmap⟩ := sequence_of_arguments (p := Spelled room) hargs
    rw [← hlength] at hcount hle
    exact ⟨vs, .array hcount hle hvs, hlength, hkinds, hmap⟩

/-- The octets of an array of bulks are those of a request. -/
theorem framed_of_spelled {room : Nat} (h : Spelled (room + 2) octets (.array vs))
    (hbulks : ∀ v ∈ vs, ∃ data, v = .bulk data) : Framed octets (vs.map Value.asArgument) := by
  cases h with
  | array hcount hle hvs =>
    rw [← List.length_map (f := Value.asArgument)] at hcount hle
    exact .array hcount hle (arguments_of_sequence hvs hbulks)

/-- **Requests are replies, read alike.** What is framed as a request decodes as an array of the same octets,
with a bulk or the null value for each argument; and an array of nothing but bulks is framed as the request
with these arguments. -/
theorem requests_are_replies (buf : Bytes) (n : Nat) :
    (∀ args, Request.read buf = .complete args n →
      ∃ vs, Reply.read buf = .complete (.array vs) n ∧ vs.length = args.length ∧
        (∀ v ∈ vs, v = .null ∨ ∃ data, v = .bulk data) ∧ vs.map Value.asArgument = args) ∧
    (∀ vs, Reply.read buf = .complete (.array vs) n → (∀ v ∈ vs, ∃ data, v = .bulk data) →
      Request.read buf = .complete (vs.map Value.asArgument) n) := by
  refine ⟨fun args h => ?_, fun vs h hbulks => ?_⟩
  · obtain ⟨hn, hframed⟩ := read_eq_complete_iff_framed.mp h
    obtain ⟨vs, hspelled, hvs⟩ := spelled_of_framed hframed
    exact ⟨vs, read_eq_complete_iff_spelled.mpr ⟨hn, hspelled⟩, hvs⟩
  · obtain ⟨hn, hspelled⟩ := read_eq_complete_iff_spelled.mp h
    exact read_eq_complete_iff_framed.mpr ⟨hn, framed_of_spelled hspelled hbulks⟩

/-- An argument left out among others, and octets behind the request. -/
theorem requests_are_replies_left_out :
    let buf : Bytes := [42, 50, 13, 10, 36, 45, 49, 13, 10, 36, 49, 13, 10, 97, 13, 10, 42]
    Request.read buf = .complete [[], [97]] 16 ∧
    ∃ vs, Reply.read buf = .complete (.array vs) 16 ∧ vs.map Value.asArgument = [[], [97]] := by
  intro buf
  have h : Request.read buf = .complete [[], [97]] 16 := by decide
  obtain ⟨vs, hread, -, -, hargs⟩ := (requests_are_replies buf 16).1 _ h
  exact ⟨h, vs, hread, hargs⟩

-- A null value among the elements may be spelled as an array, which is no argument.
example : Reply.read [42, 49, 13, 10, 42, 45, 49, 13, 10] = .complete (.array [.null]) 9 ∧
    Request.read [42, 49, 13, 10, 42, 45, 49, 13, 10] = .malformed (.expectedBulk 42) 4 := ⟨rfl, rfl⟩

end Reply
end Wire
end Keyspace
