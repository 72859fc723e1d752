/-
# The agenda of a shard stays short

The agenda of a shard holds at most twice as many notes as the shard has deadlines, and `slack`
(`Short`). Setting and clearing a deadline compacts, which gives the bound anew. A sweep needs a closer
look: it first takes the due keys off the agenda, which then tracks fewer keys and keeps its stale notes of
far deadlines. But every key that it reports is evicted by the shard, which clears it in the agenda once
more and so compacts; and if it reports none, the agenda tracks as many keys as before
(`evictAll_short`).

Key definitions: `Shard.Short`.
Key theorems: `Sound.short_sweep`, `Sound.short_run`, `compaction_bounds_and_hides`.
-/
import Keyspace.Proofs.Expiry.Compaction
import Keyspace.Proofs.Shard.Sound

namespace Keyspace
namespace Shard

variable {s : Shard} {mode : Mode} {d : Deadlines} {key : Bytes} {due now : Instant}

/-- The agenda, if there is one, is not much longer than there are deadlines. -/
def Short (s : Shard) (d : Deadlines) : Prop :=
  ∀ a, s.agenda = some a → a.length ≤ 2 * d.size + Agenda.slack

theorem short_empty (mode : Mode) : (empty mode).Short ∅ := by
  intro a ha
  cases mode with
  | linear => cases ha
  | heap =>
    obtain rfl := Option.some.inj ha
    exact Nat.zero_le _

/-! ### Changing one deadline -/

theorem Tracking.short_setDeadline (h : s.Tracking mode d) (key : Bytes) (due : Instant) :
    (s.setDeadline key due).Short (d.insert key due) := by
  intro a ha
  obtain ⟨b, hb, rfl⟩ := Option.map_eq_some_iff.mp ha
  have htracks := h.tracks hb
  rw [← (htracks.set key due).tracked_eq]
  exact htracks.length_set key due

/-- Clearing a deadline compacts. Where there is none, nothing happens to the agenda. -/
theorem Tracking.short_clearDeadline (h : s.Tracking mode d)
    (hnone : key ∉ s.deadlines → key ∉ d ∧ s.Short d) : (s.clearDeadline key).2.Short (d.erase key) := by
  intro a ha
  rw [agenda_clearDeadline] at ha
  by_cases hkey : key ∈ s.deadlines
  · rw [if_pos hkey] at ha
    obtain ⟨b, hb, rfl⟩ := Option.map_eq_some_iff.mp ha
    have htracks := h.tracks hb
    rw [← (htracks.clear key).tracked_eq]
    exact htracks.length_clear key
  · obtain ⟨hd, hshort⟩ := hnone hkey
    rw [if_neg hkey] at ha
    rw [Dict.erase_of_not_mem hd]
    exact hshort a ha

section Keys

variable (h : s.Sound mode) (hs : s.Short s.deadlines)
include h hs

theorem Sound.short_clearDeadline (key : Bytes) :
    (s.clearDeadline key).2.Short (s.clearDeadline key).2.deadlines :=
  h.tracking.short_clearDeadline fun hkey => ⟨hkey, hs⟩

theorem Sound.short_remove (key : Bytes) : (s.remove key).2.Short (s.remove key).2.deadlines :=
  Tracking.short_clearDeadline (s := { s with strings := s.strings.erase key, hashes := s.hashes.erase key })
    h.tracking fun hkey => ⟨hkey, hs⟩

theorem Sound.short_live (key : Bytes) (now : Instant) : (s.live key now).Short (s.live key now).deadlines := by
  by_cases he : s.deadlines.isExpired key now = true
  · rw [live_of_expired he]
    exact h.short_remove hs key
  · rw [live_of_live he]
    exact hs

theorem Sound.short_set (key value : Bytes) : (s.set key value).Short (s.set key value).deadlines :=
  Tracking.short_clearDeadline (s := { s with hashes := s.hashes.erase key }) h.tracking
    fun hkey => ⟨hkey, hs⟩

theorem Sound.short_dropHash (key : Bytes) :
    ({ s with hashes := s.hashes.erase key }.clearDeadline key).2.Short (s.deadlines.erase key) :=
  Tracking.short_clearDeadline (s := { s with hashes := s.hashes.erase key }) h.tracking
    fun hkey => ⟨hkey, hs⟩

theorem Sound.short_delete (key : Bytes) (now : Instant) :
    (s.delete key now).2.Short (s.delete key now).2.deadlines := by
  rw [Shard.delete]
  by_cases he : s.deadlines.isExpired key now = true
  · rw [evict_of_expired he]
    exact h.short_remove hs key
  · rw [evict_of_live he]
    exact h.short_remove hs key

theorem Sound.short_setExpire (key : Bytes) (due now : Instant) :
    (s.setExpire key due now).2.Short (s.setExpire key due now).2.deadlines := by
  rw [Shard.setExpire]
  by_cases hk : (s.live key now).contains key = true
  · rw [if_pos hk]
    exact (h.live key now).tracking.short_setDeadline key due
  · rw [if_neg hk]
    exact h.short_live hs key now

theorem Sound.short_clearExpire (key : Bytes) (now : Instant) :
    (s.clearExpire key now).2.Short (s.clearExpire key now).2.deadlines := by
  rw [Shard.clearExpire]
  by_cases he : s.deadlines.isExpired key now = true
  · rw [evict_of_expired he]
    exact h.short_remove hs key
  · rw [evict_of_live he]
    exact h.short_clearDeadline hs key

theorem Sound.short_hashSet (key : Bytes) (pairs : List (Bytes × Bytes)) (now : Instant) :
    (s.hashSet key pairs now).2.Short (s.hashSet key pairs now).2.deadlines := by
  have hlive := h.short_live hs key now
  by_cases hk : key ∈ (s.live key now).strings
  · rw [hashSet_of_string hk]
    exact hlive
  · rw [hashSet_of_not_string hk]
    exact hlive

theorem Sound.short_hashDelete (key : Bytes) (fields : List Bytes) (now : Instant) :
    (s.hashDelete key fields now).2.Short (s.hashDelete key fields now).2.deadlines := by
  have hlive := h.short_live hs key now
  by_cases hk : key ∈ (s.live key now).strings
  · rw [hashDelete_of_string hk]
    exact hlive
  cases hh : (s.live key now).hashes[key]? with
  | none =>
    rw [hashDelete_of_none hk hh]
    exact hlive
  | some hash =>
    rw [hashDelete_of_some hk hh]
    by_cases he : (removeFields hash fields).2.isEmpty = true
    · rw [if_pos he]
      exact (h.live key now).short_dropHash hlive key
    · rw [if_neg he]
      exact hlive

end Keys

/-! ### Sweeping -/

/-- While keys are evicted, the agenda tracks the pending deadlines. It is short for them from the first
eviction on, or from the beginning. -/
theorem evictAll_short {now : Instant} : ∀ (keys : List Bytes) {s : Shard},
    s.Tracking mode (s.deadlines.pending now) →
    (s.Short (s.deadlines.pending now) ∨ ∃ key ∈ keys, s.deadlines.isExpired key now = true) →
    (s.evictAll now keys).2.Short ((s.evictAll now keys).2.deadlines.pending now)
  | [], _, _, hs => hs.resolve_right (by simp)
  | key :: keys, s, h, hs => by
    by_cases he : s.deadlines.isExpired key now = true
    · have hheld : key ∈ s.deadlines := by
        obtain ⟨t, ht, -⟩ := Deadlines.isExpired_iff.mp he
        exact Dict.mem_of_getElem? ht
      have hpending : (s.remove key).2.deadlines.pending now = (s.deadlines.pending now).erase key :=
        Deadlines.pending_erase
      have hshort : (s.remove key).2.Short ((s.deadlines.pending now).erase key) :=
        Tracking.short_clearDeadline (s := { s with strings := s.strings.erase key, hashes := s.hashes.erase key })
          h fun hkey => absurd hheld hkey
      rw [evictAll_cons_expired he]
      refine evictAll_short keys ?_ (.inl (hpending ▸ hshort))
      rw [hpending]
      exact h.remove fun hkey => absurd hheld hkey
    · rw [evictAll_cons_live he]
      refine evictAll_short keys h (hs.imp_right ?_)
      rintro ⟨k, hk, hke⟩
      rcases List.mem_cons.mp hk with rfl | hk
      · exact absurd hke he
      · exact ⟨k, hk, hke⟩

theorem Sound.short_sweep (h : s.Sound mode) (hs : s.Short s.deadlines) (now : Instant) :
    (s.sweep now).2.Short (s.sweep now).2.deadlines := by
  cases ha : s.agenda with
  | none =>
    have hnone : (s.sweep now).2.agenda = none := by
      have hsound := (h.sweep now).tracking
      cases mode with
      | linear => exact hsound
      | heap => obtain ⟨a, hsome, -⟩ := h.tracking; rw [ha] at hsome; cases hsome
    intro a hsome
    rw [hnone] at hsome
    cases hsome
  | some a =>
    have htracks := h.tracks ha
    have htracking : Tracking { s with agenda := some (a.sweepDue now).2 } .heap (s.deadlines.pending now) :=
      ⟨_, rfl, htracks.sweepDue now⟩
    have hshort := evictAll_short (a.sweepDue now).1.keys htracking ?_
    · rw [← sweep_heap ha, h.deadlines_sweep now, Deadlines.pending_pending, ← h.deadlines_sweep now] at hshort
      exact hshort
    · by_cases hex : ∃ key, s.deadlines.isExpired key now = true
      · obtain ⟨key, hkey⟩ := hex
        exact .inr ⟨key, (htracks.mem_sweepDue now key).mpr hkey, hkey⟩
      · have hall : ∀ key, s.deadlines.isExpired key now = false := fun key => by
          simpa using fun hkey => hex ⟨key, hkey⟩
        refine .inl fun b hb => ?_
        obtain rfl := Option.some.inj hb
        rw [Deadlines.pending_eq_self hall]
        exact (a.length_sweepDue now).trans (hs a ha)

theorem Short.nextDue (hs : s.Short s.deadlines) :
    s.nextDue.2.Short s.nextDue.2.deadlines := by
  cases ha : s.agenda with
  | none =>
    rw [nextDue_linear ha]
    exact hs
  | some a =>
    rw [nextDue_heap ha]
    intro b hb
    obtain rfl := Option.some.inj hb
    exact a.length_prune.trans (hs a ha)

/-! ### Histories -/

/-- Every operation keeps the agenda short, at whatever time. -/
theorem Sound.short_run (h : s.Sound mode) (hs : s.Short s.deadlines) (op : Operation) :
    (op.run s).2.Short (op.run s).2.deadlines := by
  cases op with
  | set key value => exact h.short_set hs key value
  | setWithDeadline key value due => exact (h.set key value).tracking.short_setDeadline key due
  | delete key now => exact h.short_delete hs key now
  | setExpire key due now => exact h.short_setExpire hs key due now
  | clearExpire key now => exact h.short_clearExpire hs key now
  | hashSet key pairs now => exact h.short_hashSet hs key pairs now
  | hashDelete key fields now => exact h.short_hashDelete hs key fields now
  | sweep now => exact h.short_sweep hs now
  | nextDue => exact hs.nextDue
  | _ => exact h.short_live hs _ _

theorem Sound.short_runAll : ∀ (ops : List Operation) {s : Shard}, s.Sound mode → s.Short s.deadlines →
    (s.runAll ops).2.Short (s.runAll ops).2.deadlines
  | [], _, _, hs => hs
  | op :: ops, _, h, hs => Sound.short_runAll ops (h.run op) (h.short_run hs op)

theorem exists_agenda (ops : List Operation) : ∃ a, ((empty .heap).runAll ops).2.agenda = some a := by
  obtain ⟨a, ha, -⟩ := (sound_runAll .heap ops).tracking
  exact ⟨a, ha⟩

open Agenda in
/-- **The agenda stays short, and compaction does not show.** After every history of an agenda, setting and
clearing leave at most twice as many notes as keys are tracked, and `slack`; the other operations put in
none. An agenda on which the same history was performed without compaction tracks as many keys and gives
the same result, whatever is asked next. And after every history of a shard its agenda has at most twice as
many notes as the shard has deadlines, and `slack`. -/
theorem compaction_bounds_and_hides :
    (∀ ops : List Agenda.Operation,
      let a := Agenda.empty.after ops
      let b := Agenda.empty.afterUncompacted ops
      (∀ key due, (a.set key due).length ≤ 2 * (a.set key due).tracked + slack) ∧
      (∀ key, (a.clear key).length ≤ 2 * (a.clear key).tracked + slack) ∧
      (∀ now, (a.sweepDue now).2.length ≤ a.length) ∧ a.nextDue.2.length ≤ a.length ∧
      a.prune.length ≤ a.length ∧
      a.tracked = b.tracked ∧ ∀ op : Agenda.Operation, (op.run a).1 = (op.runUncompacted b).1) ∧
    ∀ ops : List Operation,
      let s := ((empty .heap).runAll ops).2
      ∃ a, s.agenda = some a ∧ a.length ≤ 2 * s.expiring + slack := by
  refine ⟨fun ops => ?_, fun ops => ?_⟩
  · obtain ⟨d, halike⟩ := alike_after ops
    have htracks := halike.left
    exact ⟨htracks.length_set, htracks.length_clear, length_sweepDue _, length_prune _, length_prune _,
      halike.tracked, fun op => (halike.run op).1⟩
  · obtain ⟨a, ha⟩ := exists_agenda ops
    exact ⟨a, ha, Sound.short_runAll ops (sound_empty .heap) (short_empty .heap) a ha⟩

end Shard
end Keyspace
