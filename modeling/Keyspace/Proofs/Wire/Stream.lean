/-
# A stream of replies

A client that gets reply after reply over one stream reads a value, drops the octets that it used, and reads
the next (`Reply.readAll`). Nothing but the values themselves says where one ends. What is written for a
value is read back whatever follows, so the values of a stream are read one by one, up to its end, if each of
them alone would be read back (`readAll_flatMap`).

Key definitions: `Reply.readAll`, `Value.Readable`.
Key theorems: `Value.Flat.readable`, `readAll_flatMap`.
-/
import Keyspace.Proofs.Wire.RoundTrip

namespace Keyspace
namespace Value

open Wire

/-- The value keeps to all limits on what is read. -/
structure Readable (v : Value) : Prop where
  fits : v.Fits
  nested : v.NestedBelow (maxDepth + 1)

/-- The value is no array, and keeps to its own limit. -/
structure Leaf (v : Value) : Prop where
  not_array : ∀ items, v ≠ .array items
  inLimit : v.InLimit

/-- The value is a leaf, or an array of leaves. -/
def Flat (v : Value) : Prop := v.Leaf ∨ ∃ items, v = .array items ∧ ∀ w ∈ items, w.Leaf

/-- The value is no array with too many elements. -/
def Counted (v : Value) : Prop := ∀ items, v = .array items → items.length ≤ maxArray

variable {v : Value} {items : List Value}

theorem Leaf.readable (h : v.Leaf) : v.Readable := by
  have hwithin : v.Fits ∧ v.NestedBelow (maxDepth + 1) := within_of_not_array h.not_array h.inLimit
  exact ⟨hwithin.1, hwithin.2⟩

/-- One level of arrays is far from the limit on nesting. -/
theorem Flat.readable (h : v.Flat) (hcount : v.Counted) : v.Readable := by
  rcases h with hleaf | ⟨items, rfl, hitems⟩
  · exact hleaf.readable
  · have hparts : ∀ w ∈ items, w.Fits ∧ w.NestedBelow maxDepth := fun w hw =>
      within_of_not_array (hitems w hw).not_array (hitems w hw).inLimit
    exact ⟨fits_array (hcount items rfl) fun w hw => (hparts w hw).1,
      nestedBelow_array fun w hw => (hparts w hw).2⟩

end Value

namespace Wire
namespace Reply

open Reader

/-- A value uses at least its first octet. -/
theorem read_uses {buf : Bytes} {v : Value} {n : Nat} (h : read buf = .complete v n) : 0 < n := by
  obtain ⟨mark, m, k, hmark, -, rfl⟩ := bind_complete h
  cases buf with
  | nil => cases hmark
  | cons b bs =>
    cases hmark
    omega

/-- The values at the front of a buffer, and the octets behind them, which are no complete value. -/
def readAll (buf : Bytes) : List Value × Bytes :=
  match _h : read buf with
  | .complete v n => (readAll (buf.drop n)).map (v :: ·) id
  | .incomplete | .malformed _ _ => ([], buf)
termination_by buf.length
decreasing_by
  have hpos := read_uses _h
  have hle := read_bounded _ _ _ _h
  rw [List.length_drop]
  omega

theorem readAll_of_complete {buf : Bytes} {v : Value} {n : Nat} (h : read buf = .complete v n) :
    readAll buf = (v :: (readAll (buf.drop n)).1, (readAll (buf.drop n)).2) := by
  rw [readAll]
  split
  · next h' =>
    rw [h] at h'
    cases h'
    rfl
  · next h' =>
    rw [h] at h'
    cases h'
  · next h' =>
    rw [h] at h'
    cases h'

theorem readAll_nil : readAll [] = ([], []) := by
  rw [readAll]
  rfl

/-- A value in front of other octets is read first. -/
theorem readAll_append {v : Value} (h : v.Readable) (rest : Bytes) :
    readAll (v.encode ++ rest) = (v.spaced :: (readAll rest).1, (readAll rest).2) := by
  have hread : read (v.encode ++ rest) = .complete v.spaced v.encode.length :=
    reads_spelled (spelled_encode h.fits h.nested) rest
  rw [readAll_of_complete hread, List.drop_left]

/-- **Replies are read from a stream one by one**, up to its end, with spaces for the CR and LF in their
texts. -/
theorem readAll_flatMap : ∀ vs : List Value, (∀ v ∈ vs, v.Readable) →
    readAll (vs.flatMap Value.encode) = (vs.map Value.spaced, [])
  | [], _ => readAll_nil
  | v :: vs, h => by
    rw [List.flatMap_cons, readAll_append (h v List.mem_cons_self),
      readAll_flatMap vs fun w hw => h w (List.mem_cons_of_mem v hw)]
    rfl

end Reply
end Wire
end Keyspace
