/-
# The binding of a key

What a shard holds under a key, gathered from its three maps, is at most one `Binding`: a string or a
hash, with a deadline or without. On a shard that keeps its maps together, the bindings of all keys are
all there is to the maps (`Tidy.eq_of_binding?`).

A key that is evicted loses its binding, a key that is not keeps it: `Tidy.changes_live`. What a sweep does
is that for all keys at once, `Sound.binding?_sweep`.

Key definitions: `Binding`, `Binding.live`, `Shard.binding?`, `Shard.Changes`.
Key theorems: `Tidy.changes_live`, `Sound.binding?_sweep`, `Tidy.eq_of_binding?`.
-/
import Keyspace.Proofs.Shard.Sound

namespace Keyspace

/-- The value under a key. -/
inductive Stored where
  | string (value : Bytes)
  | hash (fields : Dict Bytes)

def Stored.kind : Stored → Kind
  | .string _ => .string
  | .hash _ => .hash

def Stored.string? : Stored → Option Bytes
  | .string value => some value
  | .hash _ => none

def Stored.hash? : Stored → Option (Dict Bytes)
  | .string _ => none
  | .hash fields => some fields

/-- A value and when it vanishes, if it does. -/
structure Binding where
  value : Stored
  deadline : Option Instant

namespace Binding

/-- A binding is live before its deadline. -/
def isLive (now : Instant) (b : Binding) : Bool :=
  match b.deadline with
  | some due => now < due
  | none => true

/-- The binding if it is live. -/
def live (now : Instant) (b : Option Binding) : Option Binding := b.filter (isLive now)

/-- The string of a binding. -/
def string? : Option Binding → Except WrongKind (Option Bytes)
  | none => .ok none
  | some ⟨.string value, _⟩ => .ok (some value)
  | some ⟨.hash _, _⟩ => .error .wrongKind

/-- The fields of a binding; where there is none, there are no fields. -/
def fields : Option Binding → Except WrongKind (Dict Bytes)
  | none => .ok ∅
  | some ⟨.hash fields, _⟩ => .ok fields
  | some ⟨.string _, _⟩ => .error .wrongKind

/-- The milliseconds that a binding has left. -/
def ttlMillis (now : Instant) : Option Binding → Int64
  | none => Ttl.noKey
  | some ⟨_, none⟩ => Ttl.noDeadline
  | some ⟨_, some due⟩ => Deadline.remainingMillis due now

/-- What is gone at one time is gone at all later ones. -/
theorem live_live {now later : Instant} (h : now ≤ later) (b : Option Binding) :
    live later (live now b) = live later b := by
  cases b with
  | none => rfl
  | some b =>
    rcases b with ⟨v, _ | due⟩
    · rfl
    · by_cases hl : later < due
      · have hn : now < due := Nat.lt_of_le_of_lt h hl
        simp [live, Option.filter_some, isLive, hn]
      · by_cases hn : now < due
        · simp [live, Option.filter_some, isLive, hn]
        · simp [live, Option.filter_some, isLive, hl, hn]

variable {b : Option Binding} {now due : Instant}

/-- A live binding has its deadline ahead. -/
theorem lt_of_live (h : (live now b).bind deadline = some due) : now < due := by
  rcases b with _ | ⟨v, _ | first⟩
  · cases h
  · cases h
  · by_cases hl : now < first
    · simp only [live, Option.filter_some, isLive, hl, decide_true, if_true, Option.bind_some,
        Option.some_inj] at h
      exact h ▸ hl
    · simp [live, Option.filter_some, isLive, hl] at h

/-- A binding that has its deadline ahead, if it has one, is live. -/
theorem live_of_lt (h : ∀ due, b.bind deadline = some due → now < due) : live now b = b := by
  rcases b with _ | ⟨v, _ | due⟩
  · rfl
  · rfl
  · have hdue : now < due := h due rfl
    simp [live, Option.filter_some, isLive, hdue]

/-- A binding whose deadline is reached is not live. -/
theorem live_of_le (h : b.bind deadline = some due) (hle : due ≤ now) : live now b = none := by
  rcases b with _ | ⟨v, _ | first⟩
  · cases h
  · cases h
  · obtain rfl : first = due := Option.some.inj h
    simp [live, Option.filter_some, isLive, Nat.not_lt.mpr hle]

end Binding

namespace Shard

/-! ### The binding that a shard holds -/

/-- What the shard holds under a key, expired or not. -/
def binding? (s : Shard) (key : Bytes) : Option Binding :=
  match s.strings[key]?, s.hashes[key]? with
  | some value, _ => some ⟨.string value, s.deadlines[key]?⟩
  | none, some fields => some ⟨.hash fields, s.deadlines[key]?⟩
  | none, none => none

variable {s t u : Shard} {key : Bytes} {now : Instant} {mode : Mode}

theorem binding?_congr {k : Bytes} (hs : t.strings[k]? = s.strings[k]?) (hh : t.hashes[k]? = s.hashes[k]?)
    (hd : t.deadlines[k]? = s.deadlines[k]?) : t.binding? k = s.binding? k := by
  rw [binding?, binding?, hs, hh, hd]

theorem contains_eq_isSome : s.contains key = (s.binding? key).isSome := by
  rw [Bool.eq_iff_iff, contains_iff, Std.ExtTreeMap.mem_iff_isSome_getElem?,
    Std.ExtTreeMap.mem_iff_isSome_getElem?, binding?]
  cases s.strings[key]? <;> cases s.hashes[key]? <;> simp

theorem kind?_eq_map : s.kind? key = (s.binding? key).map fun b => b.value.kind := by
  rw [kind?, binding?, Std.ExtTreeMap.contains_eq_isSome_getElem?,
    Std.ExtTreeMap.contains_eq_isSome_getElem?]
  cases s.strings[key]? <;> cases s.hashes[key]? <;> simp [Stored.kind]

theorem expect_string_map :
    ((s.expect key .string).map fun _ => s.strings[key]?) = Binding.string? (s.binding? key) := by
  rw [expect, kind?_eq_map, binding?]
  cases s.strings[key]? <;> cases s.hashes[key]? <;> simp [Stored.kind, Binding.string?, Except.map]

theorem expect_hash_map {α : Type} (s : Shard) (key : Bytes) (f : Dict Bytes → α) :
    ((s.expect key .hash).map fun _ => f (s.fieldsOf key)) = (Binding.fields (s.binding? key)).map f := by
  rw [expect, kind?_eq_map, binding?, fieldsOf]
  cases s.strings[key]? <;> cases s.hashes[key]? <;> simp [Stored.kind, Binding.fields, Except.map]

theorem fields_of_string (hk : key ∈ s.strings) : Binding.fields (s.binding? key) = .error .wrongKind := by
  have hmap := expect_hash_map s key id
  rw [expect_hash, if_pos hk] at hmap
  cases hf : Binding.fields (s.binding? key) with
  | ok fields => rw [hf] at hmap; cases hmap
  | error w => rfl

theorem fields_of_not_string (hk : key ∉ s.strings) :
    Binding.fields (s.binding? key) = .ok (s.fieldsOf key) := by
  have hmap := expect_hash_map s key id
  rw [expect_hash, if_neg hk] at hmap
  cases hf : Binding.fields (s.binding? key) with
  | ok fields => rw [hf] at hmap; cases hmap; rfl
  | error w => rw [hf] at hmap; cases hmap

/-- Where the maps are together, a deadline is part of a binding. -/
theorem Tidy.deadline_eq (h : s.Tidy) :
    s.deadlines[key]? = (s.binding? key).bind Binding.deadline := by
  cases hd : s.deadlines[key]? with
  | none =>
    rw [binding?, hd]
    cases s.strings[key]? <;> cases s.hashes[key]? <;> rfl
  | some due =>
    have hheld := h.held key (Dict.mem_of_getElem? hd)
    rw [Std.ExtTreeMap.mem_iff_isSome_getElem?, Std.ExtTreeMap.mem_iff_isSome_getElem?] at hheld
    rw [binding?, hd]
    cases hs : s.strings[key]? <;> cases hh : s.hashes[key]? <;> simp_all

/-- A key has expired if it has a binding that is not live. -/
theorem Tidy.isExpired_eq (h : s.Tidy) : s.deadlines.isExpired key now =
    ((s.binding? key).any fun b => !b.isLive now) := by
  rw [Deadlines.isExpired, h.deadline_eq]
  rcases s.binding? key with _ | ⟨v, _ | due⟩
  · rfl
  · rfl
  · by_cases hl : now < due
    · simp [Binding.isLive, Deadline.reached, hl]
    · simp [Binding.isLive, Deadline.reached, Nat.not_lt.mp hl]

theorem Tidy.live_of_expired (h : s.Tidy) (he : s.deadlines.isExpired key now = true) :
    Binding.live now (s.binding? key) = none := by
  rw [h.isExpired_eq] at he
  rcases hb : s.binding? key with _ | b
  · rfl
  · rw [hb] at he
    simpa [Binding.live, Option.filter_some] using he

theorem Tidy.live_of_live (h : s.Tidy) (he : ¬ s.deadlines.isExpired key now = true) :
    Binding.live now (s.binding? key) = s.binding? key := by
  rw [h.isExpired_eq] at he
  rcases hb : s.binding? key with _ | b
  · rfl
  · rw [hb] at he
    simpa [Binding.live, Option.filter_some] using he

/-! ### Changes of one binding -/

/-- Between two shards the binding of one key becomes `b`, and no other changes. -/
structure Changes (s t : Shard) (key : Bytes) (b : Option Binding) : Prop where
  self : t.binding? key = b
  others : ∀ k, k ≠ key → t.binding? k = s.binding? k

theorem Changes.trans {b c : Option Binding} (h : s.Changes t key b) (h' : t.Changes u key c) :
    s.Changes u key c where
  self := h'.self
  others := fun k hk => (h'.others k hk).trans (h.others k hk)

theorem changes_remove : s.Changes (s.remove key).2 key none where
  self := by simp [binding?]
  others := fun k hk => binding?_congr (Dict.getElem?_erase_ne hk) (Dict.getElem?_erase_ne hk)
    (Dict.getElem?_erase_ne hk)

theorem Tidy.changes_live (h : s.Tidy) (key : Bytes) (now : Instant) :
    s.Changes (s.live key now) key (Binding.live now (s.binding? key)) := by
  by_cases he : s.deadlines.isExpired key now = true
  · rw [Shard.live_of_expired he, h.live_of_expired he]
    exact changes_remove
  · rw [Shard.live_of_live he, h.live_of_live he]
    exact ⟨rfl, fun _ _ => rfl⟩

theorem changes_set (s : Shard) (key value : Bytes) :
    s.Changes (s.set key value) key (some ⟨.string value, none⟩) where
  self := by simp [binding?]
  others := fun k hk => binding?_congr (Dict.getElem?_insert_ne hk) (Dict.getElem?_erase_ne hk)
    (Dict.getElem?_erase_ne hk)

theorem changes_setDeadline (s : Shard) (key : Bytes) (due : Instant) : s.Changes (s.setDeadline key due) key
    ((s.binding? key).map fun b => { b with deadline := some due }) where
  self := by
    simp only [binding?, setDeadline, Std.ExtTreeMap.getElem?_insert_self]
    cases s.strings[key]? <;> cases s.hashes[key]? <;> rfl
  others := fun k hk => binding?_congr rfl rfl (Dict.getElem?_insert_ne hk)

theorem changes_clearDeadline : s.Changes (s.clearDeadline key).2 key
    ((s.binding? key).map fun b => { b with deadline := none }) where
  self := by
    simp only [binding?, strings_clearDeadline, hashes_clearDeadline, deadlines_clearDeadline,
      Std.ExtTreeMap.getElem?_erase_self]
    cases s.strings[key]? <;> cases s.hashes[key]? <;> rfl
  others := fun k hk => binding?_congr rfl rfl (Dict.getElem?_erase_ne hk)

theorem changes_putHash (h : s.Tidy) (hk : key ∉ s.strings) (fields : Dict Bytes) :
    s.Changes { s with hashes := s.hashes.insert key fields } key
      (some ⟨.hash fields, (s.binding? key).bind Binding.deadline⟩) where
  self := by
    rw [← h.deadline_eq]
    simp [binding?, Std.ExtTreeMap.getElem?_eq_none hk]
  others := fun k hk => binding?_congr rfl (Dict.getElem?_insert_ne hk) rfl

theorem changes_dropHash (hk : key ∉ s.strings) :
    s.Changes ({ s with hashes := s.hashes.erase key }.clearDeadline key).2 key none where
  self := by simp [binding?, Std.ExtTreeMap.getElem?_eq_none hk]
  others := fun k hk => binding?_congr rfl (Dict.getElem?_erase_ne hk) (Dict.getElem?_erase_ne hk)

/-! ### Maintenance -/

/-- A sweep leaves the bindings that are live, and no others. -/
theorem Sound.binding?_sweep (h : s.Sound mode) (now : Instant) (k : Bytes) :
    (s.sweep now).2.binding? k = Binding.live now (s.binding? k) := by
  have hs := h.getElem?_sweep strings (fun _ _ => rfl) (fun _ _ => rfl) now k
  have hh := h.getElem?_sweep hashes (fun _ _ => rfl) (fun _ _ => rfl) now k
  have hd := h.getElem?_sweep deadlines (fun _ _ => rfl) (fun _ _ => rfl) now k
  by_cases he : s.deadlines.isExpired k now = true
  · rw [if_pos he] at hs hh
    rw [h.live_of_expired he, binding?, hs, hh]
  · rw [if_neg he] at hs hh hd
    rw [h.live_of_live he]
    exact binding?_congr hs hh hd

theorem Sound.binding?_nextDue (h : s.Sound mode) (k : Bytes) : s.nextDue.2.binding? k = s.binding? k := by
  obtain ⟨-, -, o, ho⟩ := h.nextDue
  rw [ho]
  rfl

/-! ### The bindings are all there is -/

theorem strings_eq_bind : s.strings[key]? = (s.binding? key).bind fun b => b.value.string? := by
  rw [binding?]
  cases s.strings[key]? <;> cases s.hashes[key]? <;> rfl

theorem Tidy.hashes_eq_bind (h : s.Tidy) : s.hashes[key]? = (s.binding? key).bind fun b => b.value.hash? := by
  rw [binding?]
  cases hs : s.strings[key]? with
  | none => cases s.hashes[key]? <;> rfl
  | some value => exact Std.ExtTreeMap.getElem?_eq_none (h.oneKind key (Dict.mem_of_getElem? hs))

/-- Shards that keep their maps together and hold the same bindings hold the same maps. -/
theorem Tidy.eq_of_binding? (hs : s.Tidy) (ht : t.Tidy) (h : ∀ k, s.binding? k = t.binding? k) :
    s.strings = t.strings ∧ s.hashes = t.hashes ∧ s.deadlines = t.deadlines := by
  refine ⟨Std.ExtTreeMap.ext_getElem? fun k => ?_, Std.ExtTreeMap.ext_getElem? fun k => ?_,
    Std.ExtTreeMap.ext_getElem? fun k => ?_⟩
  · rw [strings_eq_bind, strings_eq_bind, h]
  · rw [hs.hashes_eq_bind, ht.hashes_eq_bind, h]
  · rw [hs.deadline_eq, ht.deadline_eq, h]

end Shard
end Keyspace
