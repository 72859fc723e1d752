/-
# The shard keeps its maps together

A shard holds three maps and perhaps an agenda, which its operations change one at a time and at
different moments. `Sound` says how they belong together: a key holds one value of one kind, only
held keys have a deadline, and the agenda tracks the deadlines. Every operation keeps it
(`Sound.run`), for times in any order.

Inside a sweep the agenda is ahead of the deadlines: it has forgotten the due keys before the shard
evicts the first of them. There it tracks the pending deadlines only, and each eviction keeps that
(`evictAll_tracking`) until nothing is expired and the pending deadlines are all there are.

Key definitions: `Tidy`, `Tracking`, `Sound`, `Joined`.
Key theorems: `Sound.run`, `sound_runAll`, `joined_runAll`.
-/
import Keyspace.Shard.Operation
import Keyspace.Proofs.Expiry.Tracking

namespace Keyspace
namespace Shard

variable {s : Shard} {key : Bytes} {now : Instant}

/-! ### What the parts do to the maps -/

@[simp] theorem strings_clearDeadline : (s.clearDeadline key).2.strings = s.strings := rfl
@[simp] theorem hashes_clearDeadline : (s.clearDeadline key).2.hashes = s.hashes := rfl
@[simp] theorem deadlines_clearDeadline :
    (s.clearDeadline key).2.deadlines = s.deadlines.erase key := rfl

theorem agenda_clearDeadline : (s.clearDeadline key).2.agenda =
    if key ∈ s.deadlines then s.agenda.map fun a => a.clear key else s.agenda := by
  by_cases hk : key ∈ s.deadlines <;> simp [clearDeadline, Deadlines.clear, hk]

@[simp] theorem strings_remove : (s.remove key).2.strings = s.strings.erase key := rfl
@[simp] theorem hashes_remove : (s.remove key).2.hashes = s.hashes.erase key := rfl
@[simp] theorem deadlines_remove : (s.remove key).2.deadlines = s.deadlines.erase key := rfl

@[simp] theorem strings_set {value : Bytes} : (s.set key value).strings = s.strings.insert key value := rfl
@[simp] theorem hashes_set {value : Bytes} : (s.set key value).hashes = s.hashes.erase key := rfl
@[simp] theorem deadlines_set {value : Bytes} : (s.set key value).deadlines = s.deadlines.erase key := rfl

theorem evict_of_expired (h : s.deadlines.isExpired key now = true) :
    s.evict key now = (true, (s.remove key).2) := if_pos h

theorem evict_of_live (h : ¬ s.deadlines.isExpired key now = true) : s.evict key now = (false, s) :=
  if_neg h

theorem live_of_expired (h : s.deadlines.isExpired key now = true) :
    s.live key now = (s.remove key).2 := by rw [live, evict_of_expired h]

theorem live_of_live (h : ¬ s.deadlines.isExpired key now = true) : s.live key now = s := by
  rw [live, evict_of_live h]

theorem expect_hash : s.expect key .hash = if key ∈ s.strings then .error .wrongKind else .ok () := by
  unfold expect kind?
  by_cases hs : key ∈ s.strings
  · simp [hs]
  · by_cases hh : key ∈ s.hashes <;> simp [hs, hh]

theorem contains_iff : s.contains key = true ↔ key ∈ s.strings ∨ key ∈ s.hashes := by
  simp [contains]

/-! ### Fields, by what the key holds -/

theorem hashSet_of_string {pairs : List (Bytes × Bytes)} (hk : key ∈ (s.live key now).strings) :
    s.hashSet key pairs now = (.error .wrongKind, s.live key now) := by
  rw [hashSet, expect_hash, if_pos hk]

theorem hashSet_of_not_string {pairs : List (Bytes × Bytes)} (hk : key ∉ (s.live key now).strings) :
    s.hashSet key pairs now = (.ok (setFields ((s.live key now).fieldsOf key) pairs).1,
      { s.live key now with
        hashes := (s.live key now).hashes.insert key (setFields ((s.live key now).fieldsOf key) pairs).2 }) := by
  rw [hashSet, expect_hash, if_neg hk]

theorem hashDelete_of_string {fields : List Bytes} (hk : key ∈ (s.live key now).strings) :
    s.hashDelete key fields now = (.error .wrongKind, s.live key now) := by
  rw [hashDelete, expect_hash, if_pos hk]

theorem hashDelete_of_none {fields : List Bytes} (hk : key ∉ (s.live key now).strings)
    (hh : (s.live key now).hashes[key]? = none) :
    s.hashDelete key fields now = (.ok 0, s.live key now) := by
  rw [hashDelete, expect_hash, if_neg hk, hh]

theorem hashDelete_of_some {fields : List Bytes} {hash : Dict Bytes} (hk : key ∉ (s.live key now).strings)
    (hh : (s.live key now).hashes[key]? = some hash) :
    s.hashDelete key fields now = (.ok (removeFields hash fields).1,
      if (removeFields hash fields).2.isEmpty then
        ({ s.live key now with hashes := (s.live key now).hashes.erase key }.clearDeadline key).2
      else { s.live key now with hashes := (s.live key now).hashes.insert key (removeFields hash fields).2 }) := by
  rw [hashDelete, expect_hash, if_neg hk, hh]
  by_cases he : (removeFields hash fields).2.isEmpty = true
  · rw [if_pos he]
    exact if_pos he
  · rw [if_neg he]
    exact if_neg he

/-! ### The invariant -/

/-- A key holds one value of one kind, and only keys that hold one have a deadline. -/
structure Tidy (s : Shard) : Prop where
  oneKind : ∀ key, key ∈ s.strings → key ∉ s.hashes
  held : ∀ key, key ∈ s.deadlines → key ∈ s.strings ∨ key ∈ s.hashes

/-- The agenda is there if the mode asks for it, and tracks some deadlines. -/
def Tracking (s : Shard) (mode : Mode) (d : Deadlines) : Prop :=
  match mode with
  | .linear => s.agenda = none
  | .heap => ∃ a, s.agenda = some a ∧ a.Tracks d

/-- Whatever the mode, an agenda that is there tracks the deadlines. -/
theorem Tracking.tracks {mode : Mode} {d : Deadlines} (h : s.Tracking mode d) {a : Agenda}
    (ha : s.agenda = some a) : a.Tracks d := by
  cases mode with
  | linear => rw [show s.agenda = none from h] at ha; cases ha
  | heap =>
    obtain ⟨b, hb, htracks⟩ := h
    rw [hb, Option.some_inj] at ha
    exact ha ▸ htracks

/-- The maps belong together, and the agenda tracks the deadlines. -/
structure Sound (s : Shard) (mode : Mode) : Prop extends Tidy s where
  tracking : s.Tracking mode s.deadlines

variable {mode : Mode}

theorem sound_empty (mode : Mode) : (empty mode).Sound mode where
  oneKind := by simp [empty]
  held := by simp [empty]
  tracking := by
    cases mode with
    | linear => rfl
    | heap => exact ⟨_, rfl, Agenda.tracks_empty⟩

theorem Tidy.clearDeadline (h : s.Tidy) (key : Bytes) : (s.clearDeadline key).2.Tidy where
  oneKind := h.oneKind
  held := fun k hk => h.held k (Std.ExtTreeMap.mem_of_mem_erase hk)

theorem Tidy.remove (h : s.Tidy) (key : Bytes) : (s.remove key).2.Tidy where
  oneKind := fun k hs hh => h.oneKind k (Std.ExtTreeMap.mem_of_mem_erase hs) (Std.ExtTreeMap.mem_of_mem_erase hh)
  held := fun k hk => by
    simp only [strings_remove, hashes_remove, deadlines_remove, Std.ExtTreeMap.mem_erase] at hk ⊢
    rcases h.held k hk.2 with hs | hh
    · exact .inl ⟨hk.1, hs⟩
    · exact .inr ⟨hk.1, hh⟩

theorem Tidy.live (h : s.Tidy) (key : Bytes) (now : Instant) : (s.live key now).Tidy := by
  by_cases he : s.deadlines.isExpired key now = true
  · rw [live_of_expired he]
    exact h.remove key
  · rw [live_of_live he]
    exact h

/-- An agenda that has forgotten a key already may be told to forget it again. -/
theorem Tracking.clearDeadline {d : Deadlines} (h : s.Tracking mode d)
    (hd : key ∉ s.deadlines → key ∉ d) : (s.clearDeadline key).2.Tracking mode (d.erase key) := by
  cases mode with
  | linear =>
    have hnone : s.agenda = none := h
    simp [Tracking, agenda_clearDeadline, hnone]
  | heap =>
    obtain ⟨a, ha, htracks⟩ := h
    by_cases hc : key ∈ s.deadlines
    · exact ⟨a.clear key, by rw [agenda_clearDeadline, if_pos hc, ha]; rfl, htracks.clear key⟩
    · refine ⟨a, by rw [agenda_clearDeadline, if_neg hc, ha], ?_⟩
      rw [Dict.erase_of_not_mem (hd hc)]
      exact htracks

theorem Tracking.remove {d : Deadlines} (h : s.Tracking mode d) (hd : key ∉ s.deadlines → key ∉ d) :
    (s.remove key).2.Tracking mode (d.erase key) :=
  Tracking.clearDeadline (s := { s with strings := s.strings.erase key, hashes := s.hashes.erase key }) h hd

theorem Tracking.setDeadline {d : Deadlines} (h : s.Tracking mode d) (due : Instant) :
    (s.setDeadline key due).Tracking mode (d.insert key due) := by
  cases mode with
  | linear =>
    have hnone : s.agenda = none := h
    simp [Tracking, Shard.setDeadline, hnone]
  | heap =>
    obtain ⟨a, ha, htracks⟩ := h
    exact ⟨a.set key due, by rw [Shard.setDeadline, ha]; rfl, htracks.set key due⟩

/-! ### What single keys go through -/

theorem Sound.clearDeadline (h : s.Sound mode) (key : Bytes) : (s.clearDeadline key).2.Sound mode where
  toTidy := h.toTidy.clearDeadline key
  tracking := h.tracking.clearDeadline id

theorem Sound.remove (h : s.Sound mode) (key : Bytes) : (s.remove key).2.Sound mode where
  toTidy := h.toTidy.remove key
  tracking := h.tracking.remove id

theorem Sound.live (h : s.Sound mode) (key : Bytes) (now : Instant) : (s.live key now).Sound mode := by
  by_cases he : s.deadlines.isExpired key now = true
  · rw [live_of_expired he]
    exact h.remove key
  · rw [live_of_live he]
    exact h

theorem Sound.set (h : s.Sound mode) (key value : Bytes) : (s.set key value).Sound mode where
  oneKind := fun k hs hh => by
    simp only [strings_set, hashes_set, Std.ExtTreeMap.mem_insert, Std.ExtTreeMap.mem_erase] at hs hh
    rcases hs with hk | hs
    · exact hh.1 hk
    · exact h.oneKind k hs hh.2
  held := fun k hk => by
    simp only [strings_set, hashes_set, deadlines_set, Std.ExtTreeMap.mem_insert,
      Std.ExtTreeMap.mem_erase] at hk ⊢
    rcases h.held k hk.2 with hs | hh
    · exact .inl (.inr hs)
    · exact .inr ⟨hk.1, hh⟩
  tracking := Tracking.clearDeadline (s := { s with hashes := s.hashes.erase key }) h.tracking id

theorem Sound.setDeadline (h : s.Sound mode) (hk : s.contains key = true) (due : Instant) :
    (s.setDeadline key due).Sound mode where
  oneKind := h.oneKind
  held := fun k hd => by
    rcases Std.ExtTreeMap.mem_insert.mp hd with heq | hd
    · rw [← Std.compare_eq_iff_eq.mp heq]
      exact contains_iff.mp hk
    · exact h.held k hd
  tracking := h.tracking.setDeadline due

theorem Sound.putHash (h : s.Sound mode) (hk : key ∉ s.strings) (hash : Dict Bytes) :
    Sound { s with hashes := s.hashes.insert key hash } mode where
  oneKind := fun k hs hh => by
    rcases Std.ExtTreeMap.mem_insert.mp hh with heq | hh
    · exact hk (Std.compare_eq_iff_eq.mp heq ▸ hs)
    · exact h.oneKind k hs hh
  held := fun k hd => by
    rcases h.held k hd with hs | hh
    · exact .inl hs
    · exact .inr (Std.ExtTreeMap.mem_insert.mpr (.inr hh))
  tracking := h.tracking

theorem Sound.dropHash (h : s.Sound mode) (key : Bytes) :
    ({ s with hashes := s.hashes.erase key }.clearDeadline key).2.Sound mode where
  oneKind := fun k hs hh => h.oneKind k hs (Std.ExtTreeMap.mem_of_mem_erase hh)
  held := fun k hk => by
    simp only [strings_clearDeadline, hashes_clearDeadline, deadlines_clearDeadline,
      Std.ExtTreeMap.mem_erase] at hk ⊢
    rcases h.held k hk.2 with hs | hh
    · exact .inl hs
    · exact .inr ⟨hk.1, hh⟩
  tracking := Tracking.clearDeadline (s := { s with hashes := s.hashes.erase key }) h.tracking id

theorem Sound.delete (h : s.Sound mode) (key : Bytes) (now : Instant) : (s.delete key now).2.Sound mode := by
  rw [Shard.delete]
  by_cases he : s.deadlines.isExpired key now = true
  · rw [evict_of_expired he]
    exact h.remove key
  · rw [evict_of_live he]
    exact h.remove key

theorem Sound.setExpire (h : s.Sound mode) (key : Bytes) (due now : Instant) :
    (s.setExpire key due now).2.Sound mode := by
  rw [Shard.setExpire]
  by_cases hk : (s.live key now).contains key = true
  · rw [if_pos hk]
    exact (h.live key now).setDeadline hk due
  · rw [if_neg hk]
    exact h.live key now

theorem Sound.clearExpire (h : s.Sound mode) (key : Bytes) (now : Instant) :
    (s.clearExpire key now).2.Sound mode := by
  rw [Shard.clearExpire]
  by_cases he : s.deadlines.isExpired key now = true
  · rw [evict_of_expired he]
    exact h.remove key
  · rw [evict_of_live he]
    exact h.clearDeadline key

theorem Sound.hashSet (h : s.Sound mode) (key : Bytes) (pairs : List (Bytes × Bytes)) (now : Instant) :
    (s.hashSet key pairs now).2.Sound mode := by
  by_cases hk : key ∈ (s.live key now).strings
  · rw [hashSet_of_string hk]
    exact h.live key now
  · rw [hashSet_of_not_string hk]
    exact (h.live key now).putHash hk _

theorem Sound.hashDelete (h : s.Sound mode) (key : Bytes) (fields : List Bytes) (now : Instant) :
    (s.hashDelete key fields now).2.Sound mode := by
  by_cases hk : key ∈ (s.live key now).strings
  · rw [hashDelete_of_string hk]
    exact h.live key now
  cases hh : (s.live key now).hashes[key]? with
  | none =>
    rw [hashDelete_of_none hk hh]
    exact h.live key now
  | some hash =>
    rw [hashDelete_of_some hk hh]
    by_cases he : (removeFields hash fields).2.isEmpty = true
    · rw [if_pos he]
      exact (h.live key now).dropHash key
    · rw [if_neg he]
      exact (h.live key now).putHash hk _

/-! ### Sweeping -/

theorem evictAll_cons_expired {keys : List Bytes} (h : s.deadlines.isExpired key now = true) :
    s.evictAll now (key :: keys) =
      (((s.remove key).2.evictAll now keys).1 + 1, ((s.remove key).2.evictAll now keys).2) := by
  rw [evictAll, evict_of_expired h]
  rfl

theorem evictAll_cons_live {keys : List Bytes} (h : ¬ s.deadlines.isExpired key now = true) :
    s.evictAll now (key :: keys) = s.evictAll now keys := by
  rw [evictAll, evict_of_live h]
  rfl

theorem Tidy.evictAll {now : Instant} : ∀ (keys : List Bytes) {s : Shard}, s.Tidy →
    (s.evictAll now keys).2.Tidy
  | [], _, h => h
  | key :: keys, s, h => by
    by_cases he : s.deadlines.isExpired key now = true
    · rw [evictAll_cons_expired he]
      exact Tidy.evictAll keys (h.remove key)
    · rw [evictAll_cons_live he]
      exact Tidy.evictAll keys h

/-- While keys are evicted, the agenda keeps tracking the deadlines that are pending. -/
theorem evictAll_tracking {now : Instant} : ∀ (keys : List Bytes) {s : Shard},
    s.Tracking mode (s.deadlines.pending now) →
    (s.evictAll now keys).2.Tracking mode ((s.evictAll now keys).2.deadlines.pending now)
  | [], _, h => h
  | key :: keys, s, h => by
    by_cases he : s.deadlines.isExpired key now = true
    · rw [evictAll_cons_expired he]
      refine evictAll_tracking keys ?_
      rw [deadlines_remove, Deadlines.pending_erase]
      refine h.remove fun hk => ?_
      have hnone : s.deadlines[key]? = none := Std.ExtTreeMap.getElem?_eq_none hk
      simp [Deadlines.isExpired, hnone] at he
    · rw [evictAll_cons_live he]
      exact evictAll_tracking keys h

/-- Evicting keys, all the expired ones among them, takes exactly the expired ones out of a map that
`remove` takes keys out of. -/
theorem getElem?_evictAll {α : Type} (f : Shard → Dict α)
    (hf : ∀ s key, f (s.remove key).2 = (f s).erase key) {now : Instant} :
    ∀ (keys : List Bytes) {s : Shard}, (∀ k, s.deadlines.isExpired k now = true → k ∈ keys) →
    ∀ k : Bytes, (f (s.evictAll now keys).2)[k]? =
      if s.deadlines.isExpired k now = true then none else (f s)[k]?
  | [], s, h, k => by
    rw [if_neg fun he => by cases h k he]
    rfl
  | key :: keys, s, h, k => by
    by_cases he : s.deadlines.isExpired key now = true
    · have hrest : ∀ l, (s.remove key).2.deadlines.isExpired l now = true → l ∈ keys := fun l hl => by
        by_cases hlk : l = key
        · rw [hlk, deadlines_remove, Deadlines.isExpired_erase_self] at hl
          cases hl
        · rw [deadlines_remove, Deadlines.isExpired_erase_ne hlk] at hl
          exact (List.mem_cons.mp (h l hl)).resolve_left hlk
      rw [evictAll_cons_expired he, getElem?_evictAll f hf keys hrest, deadlines_remove, hf]
      by_cases hk : k = key
      · simp [hk, he]
      · rw [Deadlines.isExpired_erase_ne hk, Dict.getElem?_erase_ne hk]
    · rw [evictAll_cons_live he]
      refine getElem?_evictAll f hf keys (fun l hl => ?_) k
      rcases List.mem_cons.mp (h l hl) with rfl | hm
      · exact absurd hl he
      · exact hm

/-- Every eviction takes one deadline. -/
theorem evictAll_count (now : Instant) : ∀ (keys : List Bytes) {s : Shard},
    (s.evictAll now keys).1 + (s.evictAll now keys).2.deadlines.size = s.deadlines.size
  | [], _ => Nat.zero_add _
  | key :: keys, s => by
    by_cases he : s.deadlines.isExpired key now = true
    · obtain ⟨t, ht, -⟩ := Deadlines.isExpired_iff.mp he
      have hmem : key ∈ s.deadlines := Dict.mem_of_getElem? ht
      have hpos : 0 < s.deadlines.size := Dict.size_pos_of_mem hmem
      have ih := evictAll_count now keys (s := (s.remove key).2)
      rw [deadlines_remove, Std.ExtTreeMap.size_erase, if_pos (by simpa using hmem)] at ih
      rw [evictAll_cons_expired he]
      simp only
      omega
    · rw [evictAll_cons_live he]
      exact evictAll_count now keys

theorem sweep_linear (h : s.agenda = none) :
    s.sweep now = s.evictAll now (s.deadlines.due now) := by
  rw [sweep, proposals, h]

theorem sweep_heap {a : Agenda} (h : s.agenda = some a) : s.sweep now =
    Shard.evictAll { s with agenda := some (a.sweepDue now).2 } now (a.sweepDue now).1.keys := by
  rw [sweep, proposals, h]
  rfl

/-- Either way of finding due keys proposes the expired ones and touches nothing but the agenda, which
then tracks the pending deadlines. -/
theorem Sound.sweep_eq (h : s.Sound mode) (now : Instant) : ∃ (keys : List Bytes) (o : Option Agenda),
    s.sweep now = Shard.evictAll { s with agenda := o } now keys ∧
    (∀ k, k ∈ keys ↔ s.deadlines.isExpired k now = true) ∧
    Tracking { s with agenda := o } mode (s.deadlines.pending now) := by
  have ht := h.tracking
  cases mode with
  | linear =>
    have hnone : s.agenda = none := ht
    refine ⟨s.deadlines.due now, none, ?_, fun k => Deadlines.mem_due_iff, rfl⟩
    rw [sweep_linear hnone, ← hnone]
  | heap =>
    obtain ⟨a, ha, htracks⟩ := ht
    exact ⟨_, _, sweep_heap ha, htracks.mem_sweepDue now, _, rfl, htracks.sweepDue now⟩

/-- What a sweep takes out of a map that `remove` takes keys out of. -/
theorem Sound.getElem?_sweep (h : s.Sound mode) {α : Type} (f : Shard → Dict α)
    (hf : ∀ s key, f (s.remove key).2 = (f s).erase key) (ha : ∀ s o, f { s with agenda := o } = f s)
    (now : Instant) (k : Bytes) : (f (s.sweep now).2)[k]? =
      if s.deadlines.isExpired k now = true then none else (f s)[k]? := by
  obtain ⟨keys, o, hs, hkeys, -⟩ := h.sweep_eq now
  rw [hs, getElem?_evictAll f hf keys (s := { s with agenda := o }) fun l hl => (hkeys l).mpr hl, ha]

theorem Sound.deadlines_sweep (h : s.Sound mode) (now : Instant) :
    (s.sweep now).2.deadlines = s.deadlines.pending now := by
  refine Std.ExtTreeMap.ext_getElem? fun k => ?_
  rw [h.getElem?_sweep deadlines (fun _ _ => rfl) (fun _ _ => rfl), Deadlines.getElem?_pending]

/-- A sweep counts the deadlines that it takes away. -/
theorem Sound.sweep_count (h : s.Sound mode) (now : Instant) :
    (s.sweep now).1 + (s.deadlines.pending now).size = s.deadlines.size := by
  obtain ⟨keys, o, hs, -, -⟩ := h.sweep_eq now
  rw [← h.deadlines_sweep now, hs]
  exact evictAll_count now keys

theorem Sound.sweep (h : s.Sound mode) (now : Instant) : (s.sweep now).2.Sound mode := by
  obtain ⟨keys, o, hs, -, ho⟩ := h.sweep_eq now
  have hd := h.deadlines_sweep now
  have htrack : (s.sweep now).2.Tracking mode ((s.sweep now).2.deadlines.pending now) :=
    hs ▸ evictAll_tracking keys ho
  rw [hd, Deadlines.pending_pending, ← hd] at htrack
  exact ⟨hs ▸ Tidy.evictAll keys ⟨h.oneKind, h.held⟩, htrack⟩

/-! ### The earliest deadline -/

theorem nextDue_linear (h : s.agenda = none) : s.nextDue = (s.deadlines.nextDue?, s) := by
  rw [nextDue, h]

theorem nextDue_heap {a : Agenda} (h : s.agenda = some a) :
    s.nextDue = (a.nextDue.1, { s with agenda := some a.nextDue.2 }) := by
  rw [nextDue, h]

theorem Sound.nextDue (h : s.Sound mode) : s.deadlines.Least s.nextDue.1 ∧
    s.nextDue.2.Sound mode ∧ ∃ o, s.nextDue.2 = { s with agenda := o } := by
  have ht := h.tracking
  cases mode with
  | linear =>
    rw [nextDue_linear ht]
    exact ⟨Deadlines.nextDue?_least, h, s.agenda, rfl⟩
  | heap =>
    obtain ⟨a, ha, htracks⟩ := ht
    rw [nextDue_heap ha]
    exact ⟨htracks.nextDue_least, ⟨⟨h.oneKind, h.held⟩, _, rfl, htracks.nextDue⟩, _, rfl⟩

/-! ### Histories -/

/-- Every operation keeps the maps together, at whatever time. -/
theorem Sound.run (h : s.Sound mode) (op : Operation) : (op.run s).2.Sound mode := by
  cases op with
  | get key now => exact h.live key now
  | set key value => exact h.set key value
  | setWithDeadline key value due =>
    exact (h.set key value).setDeadline (contains_iff.mpr (.inl (by simp))) due
  | delete key now => exact h.delete key now
  | setExpire key due now => exact h.setExpire key due now
  | clearExpire key now => exact h.clearExpire key now
  | ttlMillis key now => exact h.live key now
  | kindOf key now => exact h.live key now
  | hashSet key pairs now => exact h.hashSet key pairs now
  | hashGet key field now => exact h.live key now
  | hashGetMany key fields now => exact h.live key now
  | hashDelete key fields now => exact h.hashDelete key fields now
  | hashHas key field now => exact h.live key now
  | hashSize key now => exact h.live key now
  | hashPairs key now => exact h.live key now
  | sweep now => exact h.sweep now
  | nextDue => exact h.nextDue.2.1

theorem Sound.runAll : ∀ (ops : List Operation) {s : Shard}, s.Sound mode →
    (s.runAll ops).2.Sound mode
  | [], _, h => h
  | op :: ops, _, h => Sound.runAll ops (h.run op)

theorem sound_runAll (mode : Mode) (ops : List Operation) : ((empty mode).runAll ops).2.Sound mode :=
  Sound.runAll ops (sound_empty mode)

/-! ### How the parts agree -/

/-- The maps of a shard and its agenda in agreement: one value of one kind under a key, deadlines of
held keys only, and in the agenda, if the mode asks for one, the same keys, each with a single note of
its generation, which carries its deadline. -/
structure Joined (s : Shard) (mode : Mode) : Prop where
  oneKind : ∀ key, ¬ (key ∈ s.strings ∧ key ∈ s.hashes)
  held : ∀ key, key ∈ s.deadlines →
    (key ∈ s.strings ∧ key ∉ s.hashes) ∨ (key ∉ s.strings ∧ key ∈ s.hashes)
  kept : s.agenda.isSome = true ↔ mode = .heap
  sameKeys : ∀ a, s.agenda = some a → ∀ key, key ∈ a.generations ↔ key ∈ s.deadlines
  oneNote : ∀ a, s.agenda = some a → ∀ (key : Bytes) (due : Instant), s.deadlines[key]? = some due →
    ∃ g, a.generations[key]? = some g ∧ a.notes.filter (fun n => n.generation == g) = [⟨due, g, key⟩]

theorem Sound.tracks (h : s.Sound mode) {a : Agenda} (ha : s.agenda = some a) :
    a.Tracks s.deadlines := h.tracking.tracks ha

theorem Sound.joined (h : s.Sound mode) : s.Joined mode where
  oneKind := fun key hboth => h.oneKind key hboth.1 hboth.2
  held := fun key hk => by
    rcases h.held key hk with hs | hh
    · exact .inl ⟨hs, h.oneKind key hs⟩
    · exact .inr ⟨fun hs => h.oneKind key hs hh, hh⟩
  kept := by
    have ht := h.tracking
    cases mode with
    | linear => simp [show s.agenda = none from ht]
    | heap => obtain ⟨a, ha, -⟩ := ht; simp [ha]
  sameKeys := fun _ ha => (h.tracks ha).keys
  oneNote := fun _ ha _ _ hd => by
    obtain ⟨g, hg⟩ := (h.tracks ha).exists_generation hd
    exact ⟨g, hg, (h.tracks ha).one_note hd hg⟩

/-- **The parts of a shard agree in every state it can reach**, by operations in any order and at
any times. -/
theorem joined_runAll (mode : Mode) (ops : List Operation) : ((empty mode).runAll ops).2.Joined mode :=
  (sound_runAll mode ops).joined

end Shard
end Keyspace
