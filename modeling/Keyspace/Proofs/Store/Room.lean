/-
# Room for arguments

The numbers of a store have no bound, those of a machine do: generations are counted in 64 bits, sizes are
taken of collections that are in memory, and a deadline is on the clock. A store has `Room` for `n` arguments
if its numbers are that far from their bounds. Requests use room up, no more than they have arguments
(`Room.execute`); maintenance uses none. So whatever is asked of a new store, it has room as long as the
arguments of all requests together are fewer than what fits in memory (`room_runTasks`).

What an operation may use is said between the shards before and after it (`Shard.Spends`), in a form that adds
up. A deadline is paid for when it is set, with one generation for setting it and one for clearing it. So the
last generation and the number of deadlines are counted together.

Key definitions: `Shard.Room`, `Shard.Spends`, `Operation.cost`, `Store.Room`.
Key theorems: `Spends.run`, `Room.execute`, `room_runTasks`.
-/
import Keyspace.Command.Task
import Keyspace.Proofs.Command.Operations
import Keyspace.Proofs.Expiry.Clock
import Keyspace.Proofs.Expiry.Schedule

namespace Keyspace

open Shard (Operation)

/-! ### Agendas -/

namespace Agenda

theorem tracked_set_le (a : Agenda) (key : Bytes) (due : Instant) : (a.set key due).tracked ≤ a.tracked + 1 := by
  rw [tracked, set, generations_compact]
  exact Std.ExtTreeMap.size_insert_le

theorem tracked_clear_le (a : Agenda) (key : Bytes) : (a.clear key).tracked ≤ a.tracked := by
  rw [tracked, clear, generations_compact]
  exact Std.ExtTreeMap.size_erase_le

theorem size_popDue_le (now : Instant) : ∀ (notes : List Note) (g : Dict Nat),
    (popDue now notes g).2.2.size ≤ g.size
  | [], _ => Nat.le_refl _
  | n :: notes, g => by
    by_cases hr : Deadline.reached n.due now = true
    · by_cases hc : g[n.key]? = some n.generation
      · rw [popDue_current hr hc]
        exact Nat.le_trans (size_popDue_le now notes _) Std.ExtTreeMap.size_erase_le
      · rw [popDue_stale hr hc]
        exact size_popDue_le now notes g
    · rw [popDue_later (by simpa using hr)]

end Agenda

namespace Shard

/-! ### What an operation uses -/

/-- More than there are elements in any collection that is in memory: an element takes two octets or more, and
no collection takes more than half of the addresses. -/
def capacity : Nat := 4611686018427387904

/-- The last generation given out, if the shard has an agenda. -/
def generation (s : Shard) : Nat := s.agenda.elim 0 Agenda.lastGeneration

/-- The number of keys that the agenda tracks, if the shard has one. -/
def tracked (s : Shard) : Nat := s.agenda.elim 0 Agenda.tracked

/-- The numbers of the shard stay within their bounds for `n` more arguments. -/
structure Room (s : Shard) (n : Nat) : Prop where
  /-- A deadline is an instant that the clock can show. -/
  deadline : ∀ (key : Bytes) (due : Nat), s.deadlines[key]? = some due → due ≤ Clock.last
  /-- A hash is in memory. -/
  fields : ∀ key, (s.fieldsOf key).size + n < capacity
  /-- So are the keys that the agenda tracks. -/
  tracked : s.tracked + n < capacity
  /-- A generation is a 64-bit word, and some are left to clear every deadline. -/
  generation : s.generation + s.deadlines.size + 2 * n < 18446744073709551616

/-- Between two shards, what `n` arguments may use. The generation never goes down. -/
structure Spends (s t : Shard) (n : Nat) : Prop where
  deadline : ∀ (key : Bytes) (due : Nat), t.deadlines[key]? = some due →
    due ≤ Clock.last ∨ s.deadlines[key]? = some due
  fields : ∀ key, (t.fieldsOf key).size ≤ (s.fieldsOf key).size + n
  tracked : t.tracked ≤ s.tracked + n
  generation : s.generation ≤ t.generation
  spent : t.generation + t.deadlines.size ≤ s.generation + s.deadlines.size + 2 * n

/-- How many arguments the operation uses up. -/
def Operation.cost : Operation → Nat
  | setWithDeadline _ _ _ | setExpire _ _ _ => 1
  | hashSet _ pairs _ => pairs.length
  | _ => 0

/-- How many arguments operations use up together. -/
def Operation.costAll : List Operation → Nat
  | [] => 0
  | op :: ops => op.cost + costAll ops

/-- The deadline that the operation sets. -/
def Operation.due? : Operation → Option Nat
  | setWithDeadline _ _ due | setExpire _ due _ => some due
  | _ => none

variable {s t u : Shard} {key : Bytes} {now : Instant} {m n : Nat}

theorem Room.mono (h : s.Room n) (hmn : m ≤ n) : s.Room m where
  deadline := h.deadline
  fields := fun key => by
    have := h.fields key
    omega
  tracked := by
    have := h.tracked
    omega
  generation := by
    have := h.generation
    omega

/-- What is spent is room less. -/
theorem Room.spends (h : s.Room (m + n)) (hs : s.Spends t m) : t.Room n where
  deadline := fun key due hdue => (hs.deadline key due hdue).elim id (h.deadline key due)
  fields := fun key => by
    have hroom := h.fields key
    have hsize := hs.fields key
    omega
  tracked := by
    have hroom := h.tracked
    have hsize := hs.tracked
    omega
  generation := by
    have hroom := h.generation
    have hspent := hs.spent
    omega

theorem Room.kept (h : s.Room n) (hs : s.Spends t 0) : t.Room n := (h.mono (Nat.le_of_eq (Nat.zero_add n))).spends hs

theorem Spends.refl (s : Shard) : s.Spends s 0 where
  deadline := fun _ _ => .inr
  fields := fun _ => Nat.le_refl _
  tracked := Nat.le_refl _
  generation := Nat.le_refl _
  spent := Nat.le_refl _

theorem Spends.mono (h : s.Spends t m) (hmn : m ≤ n) : s.Spends t n where
  deadline := h.deadline
  fields := fun key => Nat.le_trans (h.fields key) (Nat.add_le_add_left hmn _)
  tracked := Nat.le_trans h.tracked (Nat.add_le_add_left hmn _)
  generation := h.generation
  spent := by
    have := h.spent
    omega

theorem Spends.trans (h : s.Spends t m) (h' : t.Spends u n) : s.Spends u (m + n) where
  deadline := fun key due hdue => (h'.deadline key due hdue).elim .inl (h.deadline key due)
  fields := fun key => by
    have hfirst := h.fields key
    have hsecond := h'.fields key
    omega
  tracked := by
    have hfirst := h.tracked
    have hsecond := h'.tracked
    omega
  generation := Nat.le_trans h.generation h'.generation
  spent := by
    have hfirst := h.spent
    have hsecond := h'.spent
    omega

/-! ### What the parts of an operation use -/

theorem fieldsOf_eq_of_ne {hashes : Dict (Dict Bytes)} {k : Bytes} (h : hashes[k]? = s.hashes[k]?) :
    fieldsOf { s with hashes } k = s.fieldsOf k := by
  rw [fieldsOf, h]
  rfl

theorem fieldsOf_of_some {hash : Dict Bytes} (h : s.hashes[key]? = some hash) : s.fieldsOf key = hash := by
  rw [fieldsOf, h]
  rfl

/-- Strings are not counted, and a hash less is nothing more. -/
theorem spends_values (s : Shard) (strings : Dict Bytes) (key : Bytes) :
    s.Spends { s with strings, hashes := s.hashes.erase key } 0 where
  deadline := fun _ _ => .inr
  fields := fun k => by
    by_cases hk : k = key
    · simp [fieldsOf, hk]
    · exact Nat.le_of_eq (congrArg _ (fieldsOf_eq_of_ne (Dict.getElem?_erase_ne hk)))
  tracked := Nat.le_refl _
  generation := Nat.le_refl _
  spent := Nat.le_refl _

theorem Spends.withStrings (h : s.Spends t n) (strings : Dict Bytes) : s.Spends { t with strings } n :=
  ⟨h.deadline, h.fields, h.tracked, h.generation, h.spent⟩

theorem spends_putHash {hash : Dict Bytes} (h : hash.size ≤ (s.fieldsOf key).size + n) :
    s.Spends { s with hashes := s.hashes.insert key hash } n where
  deadline := fun _ _ => .inr
  fields := fun k => by
    by_cases hk : k = key
    · simpa [fieldsOf, hk] using h
    · exact Nat.le_add_right_of_le (Nat.le_of_eq (congrArg _ (fieldsOf_eq_of_ne (Dict.getElem?_insert_ne hk))))
  tracked := Nat.le_add_right _ _
  generation := Nat.le_refl _
  spent := Nat.le_add_right _ _

/-- A change of the agenda that takes one generation. -/
theorem counters_of_map {f : Agenda → Agenda} {k : Nat} (hagenda : t.agenda = s.agenda.map f)
    (hgeneration : ∀ a, (f a).lastGeneration = a.lastGeneration + 1)
    (htracked : ∀ a, (f a).tracked ≤ a.tracked + k) :
    s.generation ≤ t.generation ∧ t.generation ≤ s.generation + 1 ∧ t.tracked ≤ s.tracked + k := by
  rw [generation, generation, tracked, tracked, hagenda]
  cases s.agenda with
  | none => exact ⟨Nat.le_refl _, Nat.zero_le _, Nat.zero_le _⟩
  | some a =>
    have hnext := hgeneration a
    simp only [Option.map_some, Option.elim_some]
    exact ⟨by omega, by omega, htracked a⟩

/-- A deadline that is cleared was paid for when it was set. -/
theorem spends_clearDeadline (s : Shard) (key : Bytes) : s.Spends (s.clearDeadline key).2 0 := by
  have hagenda : (s.clearDeadline key).2.agenda = _ := agenda_clearDeadline
  by_cases hk : key ∈ s.deadlines
  · rw [if_pos hk] at hagenda
    obtain ⟨hle, hspent, htracked⟩ := counters_of_map hagenda (k := 0)
      (fun _ => Agenda.lastGeneration_compact _) fun a => a.tracked_clear_le key
    -- the generation that is taken is made up for by the deadline that goes
    have hpos := Dict.size_pos_of_mem hk
    have hsize : (s.clearDeadline key).2.deadlines.size = s.deadlines.size - 1 := by
      rw [deadlines_clearDeadline, Std.ExtTreeMap.size_erase, if_pos (by simpa using hk)]
    exact ⟨fun _ _ hdue => .inr (Dict.getElem?_of_erase hdue), fun _ => Nat.le_refl _, htracked, hle, by omega⟩
  · rw [if_neg hk] at hagenda
    have hdeadlines : (s.clearDeadline key).2.deadlines = s.deadlines := Dict.erase_of_not_mem hk
    have hsame : (s.clearDeadline key).2 = s := by
      obtain ⟨strings, hashes, deadlines, agenda⟩ := s
      rw [Shard.mk.injEq]
      exact ⟨rfl, rfl, hdeadlines, hagenda⟩
    rw [hsame]
    exact .refl s

theorem spends_setDeadline (s : Shard) (key : Bytes) {due : Nat} (hdue : due ≤ Clock.last) :
    s.Spends (s.setDeadline key due) 1 := by
  have hagenda : (s.setDeadline key due).agenda = s.agenda.map fun a => a.set key due := rfl
  obtain ⟨hle, hspent, htracked⟩ := counters_of_map hagenda (fun _ => Agenda.lastGeneration_compact _)
    fun a => a.tracked_set_le key due
  have hsize : (s.setDeadline key due).deadlines.size ≤ s.deadlines.size + 1 := Std.ExtTreeMap.size_insert_le
  refine ⟨fun k t ht => ?_, fun _ => Nat.le_add_right _ _, htracked, hle, by omega⟩
  by_cases hk : k = key
  · have hself : (s.setDeadline key due).deadlines[key]? = some due := Std.ExtTreeMap.getElem?_insert_self
    rw [hk, hself, Option.some_inj] at ht
    exact .inl (ht ▸ hdue)
  · have hother : (s.setDeadline key due).deadlines[k]? = s.deadlines[k]? := Dict.getElem?_insert_ne hk
    exact .inr (hother ▸ ht)

/-! ### What an operation on a key uses -/

theorem spends_remove (s : Shard) (key : Bytes) : s.Spends (s.remove key).2 0 :=
  (spends_values s _ key).trans (spends_clearDeadline _ key)

theorem spends_live (s : Shard) (key : Bytes) (now : Instant) : s.Spends (s.live key now) 0 := by
  by_cases he : s.deadlines.isExpired key now = true
  · rw [live_of_expired he]
    exact spends_remove s key
  · rw [live_of_live he]
    exact .refl s

theorem spends_set (s : Shard) (key value : Bytes) : s.Spends (s.set key value) 0 :=
  ((spends_values s s.strings key).trans (spends_clearDeadline _ key)).withStrings _

theorem spends_delete (s : Shard) (key : Bytes) (now : Instant) : s.Spends (s.delete key now).2 0 := by
  rw [delete]
  by_cases he : s.deadlines.isExpired key now = true
  · rw [evict_of_expired he]
    exact spends_remove s key
  · rw [evict_of_live he]
    exact spends_remove s key

theorem spends_setExpire (s : Shard) (key : Bytes) {due : Nat} (hdue : due ≤ Clock.last) (now : Instant) :
    s.Spends (s.setExpire key due now).2 1 := by
  rw [setExpire]
  by_cases hk : (s.live key now).contains key = true
  · rw [if_pos hk]
    exact (spends_live s key now).trans (spends_setDeadline _ key hdue)
  · rw [if_neg hk]
    exact (spends_live s key now).mono (Nat.zero_le 1)

theorem spends_clearExpire (s : Shard) (key : Bytes) (now : Instant) : s.Spends (s.clearExpire key now).2 0 := by
  rw [clearExpire]
  by_cases he : s.deadlines.isExpired key now = true
  · rw [evict_of_expired he]
    exact spends_remove s key
  · rw [evict_of_live he]
    exact spends_clearDeadline s key

/-- There are no more new fields than pairs. -/
theorem setFields_fst_le : ∀ (pairs : List (Bytes × Bytes)) (hash : Dict Bytes),
    (setFields hash pairs).1 ≤ pairs.length
  | [], _ => Nat.le_refl 0
  | (field, value) :: pairs, hash => by
    have ih := setFields_fst_le pairs (hash.insert field value)
    simp only [setFields, List.length_cons]
    split <;> omega

theorem spends_hashSet (s : Shard) (key : Bytes) (pairs : List (Bytes × Bytes)) (now : Instant) :
    s.Spends (s.hashSet key pairs now).2 pairs.length := by
  have hlive := spends_live s key now
  by_cases hk : key ∈ (s.live key now).strings
  · rw [hashSet_of_string hk]
    exact hlive.mono (Nat.zero_le _)
  · rw [hashSet_of_not_string hk]
    have hsize := setFields_fst pairs ((s.live key now).fieldsOf key)
    have hcount := setFields_fst_le pairs ((s.live key now).fieldsOf key)
    have hgrown : (setFields ((s.live key now).fieldsOf key) pairs).2.size ≤
        ((s.live key now).fieldsOf key).size + pairs.length := by omega
    exact (Nat.zero_add pairs.length) ▸ hlive.trans (spends_putHash hgrown)

theorem spends_hashDelete (s : Shard) (key : Bytes) (fields : List Bytes) (now : Instant) :
    s.Spends (s.hashDelete key fields now).2 0 := by
  have hlive := spends_live s key now
  by_cases hk : key ∈ (s.live key now).strings
  · rw [hashDelete_of_string hk]
    exact hlive
  cases hh : (s.live key now).hashes[key]? with
  | none =>
    rw [hashDelete_of_none hk hh]
    exact hlive
  | some hash =>
    rw [hashDelete_of_some hk hh]
    by_cases he : (removeFields hash fields).2.isEmpty = true
    · rw [if_pos he]
      exact (hlive.trans (spends_values _ _ key)).trans (spends_clearDeadline _ key)
    · rw [if_neg he]
      have hsize := removeFields_fst fields hash
      exact hlive.trans (spends_putHash (n := 0) (by rw [fieldsOf_of_some hh]; omega))

/-! ### Counts of fields -/

theorem fieldsOf_live_lt (h : s.Room n) (key : Bytes) (now : Instant) :
    ((s.live key now).fieldsOf key).size < capacity := by
  have hroom := h.fields key
  have hsize := (spends_live s key now).fields key
  omega

theorem hashSet_lt {pairs : List (Bytes × Bytes)} (h : s.Room pairs.length)
    (hc : (s.hashSet key pairs now).1 = .ok n) : n < capacity := by
  by_cases hk : key ∈ (s.live key now).strings
  · rw [hashSet_of_string hk] at hc
    cases hc
  · rw [hashSet_of_not_string hk] at hc
    cases hc
    have hroom := h.fields key
    have hcount := setFields_fst_le pairs ((s.live key now).fieldsOf key)
    omega

theorem hashDelete_lt {fields : List Bytes} (h : s.Room m) (hc : (s.hashDelete key fields now).1 = .ok n) :
    n < capacity := by
  have hlt := fieldsOf_live_lt h key now
  by_cases hk : key ∈ (s.live key now).strings
  · rw [hashDelete_of_string hk] at hc
    cases hc
  cases hh : (s.live key now).hashes[key]? with
  | none =>
    rw [hashDelete_of_none hk hh] at hc
    cases hc
    exact Nat.zero_lt_of_lt hlt
  | some hash =>
    rw [hashDelete_of_some hk hh] at hc
    cases hc
    have hsize := removeFields_fst fields hash
    rw [fieldsOf_of_some hh] at hlt
    omega

theorem hashSize_lt (h : s.Room m) (hc : (s.hashSize key now).1 = .ok n) : n < capacity := by
  obtain ⟨-, -, rfl⟩ := exists_of_map_eq_ok hc
  exact fieldsOf_live_lt h key now

/-! ### What maintenance uses -/

/-- Evicting keys uses nothing, as their deadlines were paid for. -/
theorem spends_evictAll (now : Instant) : ∀ (keys : List Bytes) (s : Shard), s.Spends (s.evictAll now keys).2 0
  | [], s => .refl s
  | key :: keys, s => by
    by_cases he : s.deadlines.isExpired key now = true
    · rw [evictAll_cons_expired he]
      exact (spends_remove s key).trans (spends_evictAll now keys _)
    · rw [evictAll_cons_live he]
      exact spends_evictAll now keys s

/-- An agenda that forgets notes, and gives out no generation. -/
theorem spends_agenda {a b : Agenda} (ha : s.agenda = some a) (hgeneration : b.lastGeneration = a.lastGeneration)
    (htracked : b.tracked ≤ a.tracked) : s.Spends { s with agenda := some b } 0 := by
  refine ⟨fun _ _ => .inr, fun _ => Nat.le_refl _, ?_, ?_, ?_⟩
  · rw [tracked, tracked, ha]
    exact htracked
  · rw [generation, generation, ha]
    exact Nat.le_of_eq hgeneration.symm
  · rw [generation, generation, ha]
    exact Nat.add_le_add_right (Nat.le_of_eq hgeneration) _

theorem spends_sweep (s : Shard) (now : Instant) : s.Spends (s.sweep now).2 0 := by
  cases ha : s.agenda with
  | none =>
    rw [sweep_linear ha]
    exact spends_evictAll now _ s
  | some a =>
    have htracked : (a.sweepDue now).2.tracked ≤ a.tracked := Agenda.size_popDue_le now a.notes a.generations
    rw [sweep_heap ha]
    exact (spends_agenda (b := (a.sweepDue now).2) ha rfl htracked).trans (spends_evictAll now _ _)

theorem spends_nextDue (s : Shard) : s.Spends s.nextDue.2 0 := by
  cases ha : s.agenda with
  | none =>
    rw [nextDue_linear ha]
    exact .refl s
  | some a =>
    rw [nextDue_heap ha]
    exact spends_agenda ha rfl (Nat.le_refl _)

/-- **An operation uses no more than it costs**, if the deadline that it sets is on the clock. -/
theorem Spends.run (s : Shard) (op : Operation) (hdue : ∀ due ∈ op.due?, due ≤ Clock.last) :
    s.Spends (op.run s).2 op.cost := by
  cases op with
  | set key value => exact spends_set s key value
  | setWithDeadline key value due => exact (spends_set s key value).trans (spends_setDeadline _ key (hdue due rfl))
  | delete key now => exact spends_delete s key now
  | setExpire key due now => exact spends_setExpire s key (hdue due rfl) now
  | clearExpire key now => exact spends_clearExpire s key now
  | hashSet key pairs now => exact spends_hashSet s key pairs now
  | hashDelete key fields now => exact spends_hashDelete s key fields now
  | sweep now => exact spends_sweep s now
  | nextDue => exact spends_nextDue s
  | get key now | ttlMillis key now | kindOf key now | hashGet key _ now | hashGetMany key _ now | hashHas key _ now
  | hashSize key now | hashPairs key now => exact spends_live s key now

end Shard

/-! ### Calls -/

theorem TimeUnit.deadline_le_last {unit : TimeUnit} {now : Instant} {n : Int64} {due : Nat}
    (h : unit.deadline now n = some due) : due ≤ Clock.last := by
  cases unit with
  | seconds => exact (Deadline.afterSeconds_eq_some_iff.mp h).2.2
  | millis => exact (Deadline.afterMillis_eq_some_iff.mp h).2

namespace Call

theorem setDeadline?_le_last {now : Instant} {options : List Bytes} {due : Nat}
    (h : setDeadline? now options = .ok (some due)) : due ≤ Clock.last := by
  unfold setDeadline? at h
  split at h
  · cases h
  · split at h
    · cases h
    · split at h
      · cases h
      · split at h
        · cases h
        · next hdue =>
          cases h
          exact TimeUnit.deadline_le_last hdue
  · cases h

theorem expireDeadline_le_last {unit : TimeUnit} {now : Instant} {amount : Bytes} {due : Nat}
    (h : expireDeadline unit now amount = .ok due) : due ≤ Clock.last := by
  unfold expireDeadline at h
  split at h
  · cases h
  · split at h
    · cases h
    · next hdue =>
      cases h
      exact TimeUnit.deadline_le_last hdue

/-- The deadlines that a call sets are on the clock. -/
theorem due?_le_last {call : Call} {now : Instant} {ops : List Operation} (h : call.operations now = .ok ops) :
    ∀ op ∈ ops, ∀ due ∈ op.due?, due ≤ Clock.last := by
  intro op hop due hdue
  cases call with
  | set key value options =>
    obtain ⟨o, ho, rfl⟩ := exists_of_map_eq_ok h
    cases o with
    | none =>
      obtain rfl := List.mem_singleton.mp hop
      cases hdue
    | some t =>
      obtain rfl := List.mem_singleton.mp hop
      cases hdue
      exact setDeadline?_le_last ho
  | expire unit key amount =>
    obtain ⟨t, ht, rfl⟩ := exists_of_map_eq_ok h
    obtain rfl := List.mem_singleton.mp hop
    cases hdue
    exact expireDeadline_le_last ht
  | _ =>
    have hperforms := performs_of_mem h op hop
    cases hperforms <;> cases hdue

/-- A pair is two arguments. -/
theorem length_pairs (pairs : List (Bytes × Bytes)) :
    (pairs.flatMap fun p => [p.1, p.2]).length = 2 * pairs.length := by
  simp [List.length_flatMap, Nat.mul_comm]

theorem costAll_map_of_free {α : Type} {f : α → Operation} (h : ∀ a, (f a).cost = 0) :
    ∀ as : List α, Operation.costAll (as.map f) = 0
  | [] => rfl
  | a :: as => by rw [List.map_cons, Operation.costAll, h, costAll_map_of_free h as]

/-- A call costs no more than it has arguments. -/
theorem cost_le {call : Call} {now : Instant} {ops : List Operation} (h : call.operations now = .ok ops) :
    Operation.costAll ops ≤ call.arguments.length := by
  cases call with
  | set key value options =>
    obtain ⟨o, -, rfl⟩ := exists_of_map_eq_ok h
    cases o with
    | none => exact Nat.zero_le _
    | some due => exact Nat.le_add_left 1 _
  | expire unit key amount =>
    obtain ⟨t, -, rfl⟩ := exists_of_map_eq_ok h
    exact Nat.le_add_left 1 _
  | hashSet key pairs =>
    cases h
    have hcost : Operation.costAll [.hashSet key pairs now] = pairs.length := rfl
    rw [hcost, arguments, List.length_cons, length_pairs]
    omega
  | delete keys | exist keys | getMany keys | setMany pairs =>
    cases h
    rw [costAll_map_of_free fun _ => rfl]
    exact Nat.zero_le _
  | _ =>
    cases h
    exact Nat.zero_le _

end Call

/-! ### Stores -/

/-- How many arguments the task uses up. -/
def Task.size : Task → Nat
  | request _ args => args.length
  | sweepAll _ | nextDue => 0

/-- How many arguments tasks use up together. -/
def Task.sizeAll : List Task → Nat
  | [] => 0
  | task :: tasks => task.size + sizeAll tasks

namespace Store

/-- Every shard has room for `n` arguments. -/
def Room (s : Store) (n : Nat) : Prop := ∀ (i : Nat) (shard : Shard), s.shardAt? i = some shard → shard.Room n

variable {s : Store} {m n : Nat}

theorem Room.mono (h : s.Room n) (hmn : m ≤ n) : s.Room m := fun i shard hi => (h i shard hi).mono hmn

theorem Room.shardOf (h : s.Room n) (key : Bytes) : (s.shardOf key).Room n := h _ _ (s.shardAt?_index key)

/-- There are no more arguments than fit in memory. -/
theorem Room.lt_capacity (h : s.Room n) : n < Shard.capacity :=
  Nat.lt_of_le_of_lt (Nat.le_add_left n _) ((h.shardOf []).fields [])

theorem Room.putShard (h : s.Room n) (key : Bytes) {shard : Shard} (hshard : shard.Room n) :
    (s.putShard key shard).Room n := by
  intro i t hi
  rw [shardAt?_putShard] at hi
  split at hi
  · cases hi
    exact hshard
  · exact h i t hi

theorem Room.mapShards (h : s.Room n) {f : Shard → Shard} (hf : ∀ shard : Shard, shard.Spends (f shard) 0) :
    (s.mapShards f).Room n := by
  intro i t hi
  rw [shardAt?_mapShards] at hi
  obtain ⟨shard, hshard, rfl⟩ := Option.map_eq_some_iff.mp hi
  exact (h i shard hshard).kept (hf shard)

theorem Room.run {op : Operation} (h : s.Room (op.cost + n)) (hdue : ∀ due ∈ op.due?, due ≤ Clock.last) :
    (s.run op).2.Room n := by
  cases hkey : op.key? with
  | none =>
    rw [run_maintenance s hkey]
    exact h.mono (Nat.le_add_left _ _)
  | some key =>
    have hrun : (s.run op).2 = s.putShard key (op.run (s.shardOf key)).2 := by
      rw [Store.run, hkey]
      rfl
    rw [hrun]
    exact (h.mono (Nat.le_add_left _ _)).putShard key ((h.shardOf key).spends (.run _ op hdue))

theorem Room.perform : ∀ (ops : List Operation) {s : Store}, s.Room (Operation.costAll ops + n) →
    (∀ op ∈ ops, ∀ due ∈ op.due?, due ≤ Clock.last) → (s.perform ops).2.Room n
  | [], _, h, _ => h.mono (Nat.le_add_left _ _)
  | op :: ops, s, h, hdue => by
    rw [Operation.costAll, Nat.add_assoc] at h
    have hnext := h.run (hdue op List.mem_cons_self)
    cases hrefused : (s.run op).1.isRefused with
    | true =>
      rw [perform_cons_of_refused ops hrefused]
      exact hnext.mono (Nat.le_add_left _ _)
    | false =>
      rw [perform_cons ops hrefused]
      exact Room.perform ops hnext fun o ho => hdue o (List.mem_cons_of_mem op ho)

/-- **A request uses no more room than it has arguments.** -/
theorem Room.execute {args : List Bytes} (h : s.Room (args.length + n)) (now : Instant) :
    (execute now s args).2.Room n := by
  rcases execute_cases now args with ⟨e, hfails⟩ | ⟨call, ops, hcall, hops, hruns⟩
  · rw [hfails]
    exact h.mono (Nat.le_add_left _ _)
  · obtain ⟨name, hargs, -⟩ := Call.ofRequest_eq_ok hcall
    have hlength : args.length = call.arguments.length + 1 := congrArg List.length hargs
    have hcost := Call.cost_le hops
    rw [hruns]
    exact Room.perform ops (h.mono (by omega)) (Call.due?_le_last hops)

theorem Room.task {task : Task} (h : s.Room (task.size + n)) : (task.run s).2.Room n := by
  cases task with
  | request now args => exact h.execute now
  | sweepAll now =>
    have hroom := (h.mono (Nat.le_add_left _ _)).mapShards fun shard => shard.spends_sweep now
    rw [← sweepAll_snd] at hroom
    exact hroom
  | nextDue =>
    have hroom := (h.mono (Nat.le_add_left _ _)).mapShards Shard.spends_nextDue
    rw [← nextDue_snd] at hroom
    exact hroom

theorem Room.runTasks : ∀ (tasks : List Task) {s : Store}, s.Room (Task.sizeAll tasks + n) →
    (s.runTasks tasks).2.Room n
  | [], _, h => h.mono (Nat.le_add_left _ _)
  | task :: tasks, s, h => by
    rw [Task.sizeAll, Nat.add_assoc] at h
    exact Room.runTasks tasks h.task

theorem room_emptyBy (hash : Bytes → UInt64) (count : Nat) (mode : Mode) (hn : n < Shard.capacity) :
    (emptyBy hash count mode).Room n := by
  intro i shard hi
  obtain rfl := shard_of_emptyBy hi
  have htracked : (Shard.empty mode).tracked = 0 := by cases mode <;> rfl
  have hgeneration : (Shard.empty mode).generation = 0 := by cases mode <;> rfl
  have hdeadlines : (Shard.empty mode).deadlines.size = 0 := rfl
  refine ⟨fun key due hdue => ?_, fun key => ?_, ?_, ?_⟩
  · simp [Shard.empty] at hdue
  · simpa [Shard.fieldsOf, Shard.empty] using hn
  · rw [htracked, Nat.zero_add]
    exact hn
  · rw [Shard.capacity] at hn
    omega

/-- **A new store has room for all that is asked of it**, as long as that fits in memory. -/
theorem room_runTasks (hash : Bytes → UInt64) (count : Nat) (mode : Mode) (tasks : List Task)
    (h : Task.sizeAll tasks + n < Shard.capacity) : ((emptyBy hash count mode).runTasks tasks).2.Room n :=
  Room.runTasks tasks (room_emptyBy hash count mode h)

end Store
end Keyspace
