/-
# Requests that name other keys

A request leaves what is held under the keys that it does not name, so before it and after it the store
agrees on these (`Placed.agreeOn_execute`). A request that names only such keys cannot tell whether the
first one has been carried out (`Placed.request_after`). If neither names a key of the other, the order
of the two does not show: not in the replies, and not in what the shards hold (`Placed.commute`).

The keys may well be in the same shard. What that shard keeps for all of its keys together, the agenda with
its marks, is not part of what it holds under one of them, and no reply tells of it.

Key theorems: `Placed.agreeOn_execute`, `Placed.commute`, `requests_commute`.
-/
import Keyspace.Proofs.Store.Contents

namespace Keyspace
namespace Store

variable {s : Store} {now later : Instant} {args more : List Bytes}

/-- A request leaves the keys that it does not name. -/
theorem Placed.agreeOn_execute (h : s.Placed) (now : Instant) (args : List Bytes) :
    AgreeOn (· ∉ requestKeys args) (execute now s args).2 s where
  left := h.request now args
  right := h
  same := fun _ hkey => h.binding?_execute hkey

/-- A request for other keys does not tell whether one has been carried out before. -/
theorem Placed.request_after (h : s.Placed) (now later : Instant)
    (hmore : ∀ key ∈ requestKeys more, key ∉ requestKeys args) :
    (execute later (execute now s args).2 more).1 = (execute later s more).1 ∧
    AgreeOn (· ∉ requestKeys args) (execute later (execute now s args).2 more).2 (execute later s more).2 :=
  (h.agreeOn_execute now args).request later more hmore

/-- **Requests that name different keys can be carried out in either order.** -/
theorem Placed.commute (h : s.Placed) (now later : Instant)
    (hkeys : ∀ key ∈ requestKeys args, key ∉ requestKeys more) :
    (execute later (execute now s args).2 more).1 = (execute later s more).1 ∧
    (execute now (execute later s more).2 args).1 = (execute now s args).1 ∧
    Alike (execute later (execute now s args).2 more).2 (execute now (execute later s more).2 args).2 := by
  have hkeys' : ∀ key ∈ requestKeys more, key ∉ requestKeys args := fun key hmore hargs =>
    hkeys key hargs hmore
  obtain ⟨hmore, hagree⟩ := h.request_after now later hkeys'
  obtain ⟨hargs, hagree'⟩ := h.request_after later now hkeys
  refine ⟨hmore, hargs, hagree.left, hagree'.left, fun key => ?_⟩
  -- each key is untouched by one of the two, and then only the other one matters
  by_cases hkey : key ∈ requestKeys args
  · have huntouched : (execute later (execute now s args).2 more).2.binding? key =
        (execute now s args).2.binding? key := (h.request now args).binding?_execute (hkeys key hkey)
    rw [huntouched, hagree'.same key (hkeys key hkey)]
  · have huntouched : (execute now (execute later s more).2 args).2.binding? key =
        (execute later s more).2.binding? key := (h.request later more).binding?_execute hkey
    rw [huntouched, hagree.same key hkey]

/-- **Requests that name different keys do not interfere**, whatever has happened to the store before and
however the keys are spread. Each gets the same reply whether it comes first or second, and every shard
holds the same in the end. Under a key that it does not name, a request leaves all that is held. -/
theorem requests_commute (hash : Bytes → UInt64) (count : Nat) (mode : Mode) (history : List Step)
    (now later : Instant) (args more : List Bytes) :
    let s := (emptyBy hash count mode).after history
    let first := execute now s args
    let second := execute later s more
    ((∀ key ∈ requestKeys args, key ∉ requestKeys more) →
      (execute later first.2 more).1 = second.1 ∧ (execute now second.2 args).1 = first.1 ∧
      HoldsSame (execute later first.2 more).2 (execute now second.2 args).2) ∧
    ∀ key, key ∉ requestKeys args → ∀ i, first.2.held i key = s.held i key := by
  have hs := placed_after hash count mode history
  generalize (emptyBy hash count mode).after history = s at hs
  intro s first second
  refine ⟨fun hkeys => ?_, fun key hkey i => ?_⟩
  · obtain ⟨hmore, hargs, hboth⟩ := hs.commute now later hkeys
    have hfirst : s.SameLayout (execute later first.2 more).2 :=
      (sameLayout_execute now s args).trans (sameLayout_execute later _ more)
    have hsecond : s.SameLayout (execute now second.2 args).2 :=
      (sameLayout_execute later s more).trans (sameLayout_execute now _ args)
    exact ⟨hmore, hargs, hboth.holdsSame (hfirst.symm.trans hsecond)⟩
  · have hsame : first.2.binding? key = s.binding? key := hs.binding?_execute hkey
    exact (sameLayout_execute now s args).symm.held_eq (hs.request now args) hs hsame i

/-- In one shard with an agenda: `MSET a 1 b 2` and `DEL c d c`, where `c` is about to expire. -/
theorem requests_commute_in_one_shard :
    let s := (emptyBy (fun _ => 0) 1 .heap).after
      [.task (.request 0 (["SET", "c", "x", "PX", "5"].map Bytes.ofString)),
        .task (.request 0 (["HSET", "d", "f", "v"].map Bytes.ofString))]
    let args := ["MSET", "a", "1", "b", "2"].map Bytes.ofString
    let more := ["DEL", "c", "d", "c"].map Bytes.ofString
    (∀ key ∈ requestKeys args, key ∉ requestKeys more) ∧
    HoldsSame (execute 3000000 (execute 2000000 s args).2 more).2
      (execute 2000000 (execute 3000000 s more).2 args).2 := by
  have hkeys : ∀ key ∈ requestKeys (["MSET", "a", "1", "b", "2"].map Bytes.ofString),
      key ∉ requestKeys (["DEL", "c", "d", "c"].map Bytes.ofString) := by decide +kernel
  exact ⟨hkeys, ((requests_commute (fun _ => 0) 1 .heap _ _ _ _ _).1 hkeys).2.2⟩

end Store
end Keyspace
