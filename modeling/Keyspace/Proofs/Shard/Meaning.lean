/-
# What an operation means for its key

`Operation.onBinding` says what each operation that names a key means for the binding of that key, in the
plainest terms: no maps, no agenda, no eviction. `Sound.run_binding`: on a shard that keeps its maps
together, an operation does exactly that. It answers what it means for the binding that is still live,
leaves behind the binding that it means, and touches no other key.

Key definitions: `Operation.onBinding`, `Operation.finds`.
Key theorem: `Sound.run_binding`.
-/
import Keyspace.Proofs.Shard.Binding

namespace Keyspace
namespace Shard

/-- What an operation that names a key means for the binding of that key, and what it answers. A new
string has no deadline unless one comes with it. Setting fields keeps the deadline, and makes a hash where
there was nothing; a hash goes with the last of its fields. -/
def Operation.onBinding (b : Option Binding) : Operation → Result × Option Binding
  | get _ _ => (.ofExcept .value (Binding.string? b), b)
  | set _ value => (.done, some ⟨.string value, none⟩)
  | setWithDeadline _ value due => (.done, some ⟨.string value, some due⟩)
  | delete _ _ => (.flag b.isSome, none)
  | setExpire _ due _ => (.flag b.isSome, b.map fun b => { b with deadline := some due })
  | clearExpire _ _ =>
    (.flag (b.bind Binding.deadline).isSome, b.map fun b => { b with deadline := none })
  | ttlMillis _ now => (.ttl (Binding.ttlMillis now b), b)
  | kindOf _ _ => (.kind (b.map fun b => b.value.kind), b)
  | hashSet _ pairs _ =>
    match Binding.fields b with
    | .error w => (.refused w, b)
    | .ok fields =>
      let result := pairs.foldl (fun m p => m.insert p.1 p.2) fields
      (.count (result.size - fields.size), some ⟨.hash result, b.bind Binding.deadline⟩)
  | hashGet _ field _ => (.ofExcept .value ((Binding.fields b).map fun m => m[field]?), b)
  | hashGetMany _ names _ =>
    (.ofExcept .values ((Binding.fields b).map fun m => names.map fun field => m[field]?), b)
  | hashDelete _ names _ =>
    match Binding.fields b with
    | .error w => (.refused w, b)
    | .ok fields =>
      let result := names.foldl (fun m field => m.erase field) fields
      (.count (fields.size - result.size),
        if result.isEmpty then none else some ⟨.hash result, b.bind Binding.deadline⟩)
  | hashHas _ field _ => (.ofExcept .flag ((Binding.fields b).map fun m => m.contains field), b)
  | hashSize _ _ => (.ofExcept .count ((Binding.fields b).map fun m => m.size), b)
  | hashPairs _ _ => (.ofExcept .pairs ((Binding.fields b).map fun m => m.toList), b)
  | sweep _ | nextDue => (.done, b)

/-- The binding that an operation finds under its key: a live one, if it looks at deadlines. -/
def Operation.finds (op : Operation) (b : Option Binding) : Option Binding :=
  match op.now? with
  | some now => Binding.live now b
  | none => b

variable {s : Shard} {key : Bytes} {now : Instant} {mode : Mode}

/-! ### Fields one after another -/

theorem setFields_snd : ∀ (pairs : List (Bytes × Bytes)) (hash : Dict Bytes),
    (setFields hash pairs).2 = pairs.foldl (fun m p => m.insert p.1 p.2) hash
  | [], _ => rfl
  | (field, value) :: pairs, hash => setFields_snd pairs (hash.insert field value)

/-- The new fields are what the hash has grown by. -/
theorem setFields_fst : ∀ (pairs : List (Bytes × Bytes)) (hash : Dict Bytes),
    (setFields hash pairs).1 + hash.size = (setFields hash pairs).2.size
  | [], _ => Nat.zero_add _
  | (field, value) :: pairs, hash => by
    have ih := setFields_fst pairs (hash.insert field value)
    rw [Std.ExtTreeMap.size_insert] at ih
    show (if hash.contains field then _ else _) + hash.size = (setFields (hash.insert field value) pairs).2.size
    by_cases hf : hash.contains field = true
    · rw [if_pos hf] at ih ⊢
      exact ih
    · rw [if_neg hf] at ih ⊢
      omega

theorem removeFields_snd : ∀ (fields : List Bytes) (hash : Dict Bytes),
    (removeFields hash fields).2 = fields.foldl (fun m field => m.erase field) hash
  | [], _ => rfl
  | field :: fields, hash => removeFields_snd fields (hash.erase field)

/-- The removed fields are what the hash has shrunk by. -/
theorem removeFields_fst : ∀ (fields : List Bytes) (hash : Dict Bytes),
    (removeFields hash fields).1 + (removeFields hash fields).2.size = hash.size
  | [], _ => Nat.zero_add _
  | field :: fields, hash => by
    have ih := removeFields_fst fields (hash.erase field)
    rw [Std.ExtTreeMap.size_erase] at ih
    show (if hash.contains field then _ else _) + (removeFields (hash.erase field) fields).2.size = hash.size
    by_cases hf : hash.contains field = true
    · have hpos := Dict.size_pos_of_mem (Std.ExtTreeMap.contains_iff_mem.mp hf)
      rw [if_pos hf] at ih ⊢
      omega
    · rw [if_neg hf] at ih ⊢
      exact ih

/-! ### Single operations -/

theorem Tidy.readHash_fst {α : Type} (h : s.Tidy) (f : Dict Bytes → α) :
    (s.readHash key now f).1 = (Binding.fields (Binding.live now (s.binding? key))).map f := by
  rw [← (h.changes_live key now).self, ← expect_hash_map]
  rfl

theorem Tidy.delete_binding (h : s.Tidy) (key : Bytes) (now : Instant) :
    (s.delete key now).1 = (Binding.live now (s.binding? key)).isSome ∧
    s.Changes (s.delete key now).2 key none := by
  by_cases he : s.deadlines.isExpired key now = true
  · rw [delete, evict_of_expired he, h.live_of_expired he]
    exact ⟨rfl, changes_remove⟩
  · rw [delete, evict_of_live he, h.live_of_live he]
    exact ⟨contains_eq_isSome, changes_remove⟩

theorem Tidy.setExpire_binding (h : s.Tidy) (key : Bytes) (due now : Instant) :
    (s.setExpire key due now).1 = (Binding.live now (s.binding? key)).isSome ∧
    s.Changes (s.setExpire key due now).2 key
      ((Binding.live now (s.binding? key)).map fun b => { b with deadline := some due }) := by
  have hlive := h.changes_live key now
  rw [setExpire, ← hlive.self, ← contains_eq_isSome]
  by_cases hc : (s.live key now).contains key = true
  · rw [if_pos hc, hc]
    refine ⟨rfl, hlive.trans (changes_setDeadline _ key due)⟩
  · have hnone : (s.live key now).binding? key = none := by
      rwa [contains_eq_isSome, Option.not_isSome_iff_eq_none] at hc
    rw [if_neg hc, hnone]
    exact ⟨by simp [hc], hnone, hlive.others⟩

theorem Tidy.clearExpire_binding (h : s.Tidy) (key : Bytes) (now : Instant) :
    (s.clearExpire key now).1 = ((Binding.live now (s.binding? key)).bind Binding.deadline).isSome ∧
    s.Changes (s.clearExpire key now).2 key
      ((Binding.live now (s.binding? key)).map fun b => { b with deadline := none }) := by
  by_cases he : s.deadlines.isExpired key now = true
  · rw [clearExpire, evict_of_expired he, h.live_of_expired he]
    exact ⟨rfl, changes_remove⟩
  · rw [clearExpire, evict_of_live he, h.live_of_live he, ← h.deadline_eq]
    exact ⟨Std.ExtTreeMap.contains_eq_isSome_getElem?, changes_clearDeadline⟩

theorem Tidy.ttlMillis_binding (h : s.Tidy) (key : Bytes) (now : Instant) :
    (s.ttlMillis key now).1 = Binding.ttlMillis now (Binding.live now (s.binding? key)) := by
  rw [ttlMillis, contains_eq_isSome, (h.live key now).deadline_eq, (h.changes_live key now).self]
  rcases Binding.live now (s.binding? key) with _ | ⟨v, _ | due⟩ <;> rfl

theorem Operation.onBinding_hashSet_ok {b : Option Binding} {m : Dict Bytes} {pairs : List (Bytes × Bytes)}
    (hb : Binding.fields b = .ok m) : (hashSet key pairs now).onBinding b =
      (.count (setFields m pairs).1, some ⟨.hash (setFields m pairs).2, b.bind Binding.deadline⟩) := by
  have hcount : (setFields m pairs).2.size - m.size = (setFields m pairs).1 := by
    rw [← setFields_fst, Nat.add_sub_cancel]
  rw [onBinding, hb]
  simp only [← setFields_snd, hcount]

theorem Operation.onBinding_hashDelete_ok {b : Option Binding} {m : Dict Bytes} {fields : List Bytes}
    (hb : Binding.fields b = .ok m) : (hashDelete key fields now).onBinding b =
      (.count (removeFields m fields).1, if (removeFields m fields).2.isEmpty then none
        else some ⟨.hash (removeFields m fields).2, b.bind Binding.deadline⟩) := by
  have hcount : m.size - (removeFields m fields).2.size = (removeFields m fields).1 := by
    rw [← removeFields_fst fields m, Nat.add_sub_cancel]
  rw [onBinding, hb]
  simp only [← removeFields_snd, hcount]

/-- An operation on the fields of a key that holds a string is refused and changes nothing. -/
theorem Operation.onBinding_hash_error {b : Option Binding} {w : WrongKind} (hb : Binding.fields b = .error w)
    (pairs : List (Bytes × Bytes)) (fields : List Bytes) :
    (hashSet key pairs now).onBinding b = (.refused w, b) ∧
    (hashDelete key fields now).onBinding b = (.refused w, b) := by
  rw [onBinding, onBinding, hb]
  exact ⟨rfl, rfl⟩

theorem Tidy.hashSet_binding (h : s.Tidy) (pairs : List (Bytes × Bytes))
    {b : Option Binding} (hb : (s.live key now).binding? key = b) :
    Result.ofExcept .count (s.hashSet key pairs now).1 = ((Operation.hashSet key pairs now).onBinding b).1 ∧
    s.Changes (s.hashSet key pairs now).2 key ((Operation.hashSet key pairs now).onBinding b).2 := by
  subst hb
  have hothers := (h.changes_live key now).others
  by_cases hk : key ∈ (s.live key now).strings
  · rw [hashSet_of_string hk, (Operation.onBinding_hash_error (fields_of_string hk) pairs []).1]
    exact ⟨rfl, rfl, hothers⟩
  · rw [hashSet_of_not_string hk, Operation.onBinding_hashSet_ok (fields_of_not_string hk)]
    exact ⟨rfl, (h.changes_live key now).trans (changes_putHash (h.live key now) hk _)⟩

theorem Tidy.hashDelete_binding (h : s.Tidy) (fields : List Bytes)
    {b : Option Binding} (hb : (s.live key now).binding? key = b) :
    Result.ofExcept .count (s.hashDelete key fields now).1 =
      ((Operation.hashDelete key fields now).onBinding b).1 ∧
    s.Changes (s.hashDelete key fields now).2 key ((Operation.hashDelete key fields now).onBinding b).2 := by
  subst hb
  have hothers := (h.changes_live key now).others
  by_cases hk : key ∈ (s.live key now).strings
  · rw [hashDelete_of_string hk, (Operation.onBinding_hash_error (fields_of_string hk) [] fields).2]
    exact ⟨rfl, rfl, hothers⟩
  rw [Operation.onBinding_hashDelete_ok (fields_of_not_string hk), fieldsOf]
  cases hh : (s.live key now).hashes[key]? with
  | none =>
    have hcount := removeFields_fst fields ∅
    rw [Std.ExtTreeMap.size_empty, Nat.add_eq_zero_iff] at hcount
    have hgone : (removeFields ∅ fields).2.isEmpty = true := by
      rw [Std.ExtTreeMap.isEmpty_iff, Std.ExtTreeMap.eq_empty_iff_size_eq_zero]
      exact hcount.2
    rw [hashDelete_of_none hk hh, Option.getD_none, hcount.1, if_pos hgone]
    refine ⟨rfl, ?_, hothers⟩
    rw [binding?, Std.ExtTreeMap.getElem?_eq_none hk, hh]
  | some hash =>
    rw [hashDelete_of_some hk hh, Option.getD_some]
    refine ⟨rfl, ?_⟩
    by_cases he : (removeFields hash fields).2.isEmpty = true
    · rw [if_pos he, if_pos he]
      exact (h.changes_live key now).trans (changes_dropHash hk)
    · rw [if_neg he, if_neg he]
      exact (h.changes_live key now).trans (changes_putHash (h.live key now) hk _)

/-- **An operation does to its key what it means for the binding it finds there**, and nothing to any
other key. -/
theorem Sound.run_binding (h : s.Sound mode) (op : Operation) (hop : op.key? = some key) :
    (op.run s).1 = (op.onBinding (op.finds (s.binding? key))).1 ∧
    s.Changes (op.run s).2 key (op.onBinding (op.finds (s.binding? key))).2 := by
  have hlive : ∀ now, s.Changes (s.live key now) key (Binding.live now (s.binding? key)) :=
    h.changes_live key
  cases op with
  | get k now =>
    obtain rfl : k = key := Option.some.inj hop
    refine ⟨?_, hlive now⟩
    show Result.ofExcept .value _ = Result.ofExcept .value (Binding.string? (Binding.live now _))
    rw [← (hlive now).self, ← expect_string_map]
  | set k value =>
    obtain rfl : k = key := Option.some.inj hop
    exact ⟨rfl, changes_set s k value⟩
  | setWithDeadline k value due =>
    obtain rfl : k = key := Option.some.inj hop
    have hset := changes_set s k value
    have hdue := changes_setDeadline (s.set k value) k due
    rw [hset.self] at hdue
    exact ⟨rfl, hset.trans hdue⟩
  | delete k now =>
    obtain rfl : k = key := Option.some.inj hop
    obtain ⟨hflag, hchanges⟩ := h.delete_binding k now
    exact ⟨congrArg Result.flag hflag, hchanges⟩
  | setExpire k due now =>
    obtain rfl : k = key := Option.some.inj hop
    obtain ⟨hflag, hchanges⟩ := h.setExpire_binding k due now
    exact ⟨congrArg Result.flag hflag, hchanges⟩
  | clearExpire k now =>
    obtain rfl : k = key := Option.some.inj hop
    obtain ⟨hflag, hchanges⟩ := h.clearExpire_binding k now
    exact ⟨congrArg Result.flag hflag, hchanges⟩
  | ttlMillis k now =>
    obtain rfl : k = key := Option.some.inj hop
    exact ⟨congrArg Result.ttl (h.ttlMillis_binding k now), hlive now⟩
  | kindOf k now =>
    obtain rfl : k = key := Option.some.inj hop
    refine ⟨?_, hlive now⟩
    show Result.kind _ = Result.kind ((Binding.live now _).map _)
    rw [← (hlive now).self, ← kind?_eq_map]
  | hashSet k pairs now =>
    obtain rfl : k = key := Option.some.inj hop
    exact h.hashSet_binding pairs (hlive now).self
  | hashDelete k fields now =>
    obtain rfl : k = key := Option.some.inj hop
    exact h.hashDelete_binding fields (hlive now).self
  | hashGet k field now =>
    obtain rfl : k = key := Option.some.inj hop
    exact ⟨congrArg (Result.ofExcept .value) (h.readHash_fst fun m => m[field]?), hlive now⟩
  | hashGetMany k fields now =>
    obtain rfl : k = key := Option.some.inj hop
    exact ⟨congrArg (Result.ofExcept .values) (h.readHash_fst fun m => fields.map fun field => m[field]?), hlive now⟩
  | hashHas k field now =>
    obtain rfl : k = key := Option.some.inj hop
    exact ⟨congrArg (Result.ofExcept .flag) (h.readHash_fst fun m => m.contains field), hlive now⟩
  | hashSize k now =>
    obtain rfl : k = key := Option.some.inj hop
    exact ⟨congrArg (Result.ofExcept .count) (h.readHash_fst _), hlive now⟩
  | hashPairs k now =>
    obtain rfl : k = key := Option.some.inj hop
    exact ⟨congrArg (Result.ofExcept .pairs) (h.readHash_fst _), hlive now⟩
  | sweep now => cases hop
  | nextDue => cases hop

end Shard
end Keyspace
