/-
# Compaction keeps the agenda short and does not show

Stale notes wait in the agenda until they come to the front, which may take for ever. Compaction sweeps
them out once they are too many. What is left then are the current notes, and of these there is one for
each tracked key (`Tracks.length_current`); so behind every `set` and every `clear` the agenda is at most
twice as long as it tracks keys, and `slack` (`Tracks.length_compact`). The other operations only take notes
off the front.

An agenda that is never compacted keeps more notes, but the same current ones. Agendas that track the same
deadlines and record the same generations (`Alike`) answer alike and stay so, whether an operation compacts
one of them or not: `Alike.run`.

Key definitions: `Operation.runUncompacted`, `Agenda.afterUncompacted`, `Agenda.Alike`.
Key theorems: `Tracks.length_set`, `Tracks.length_clear`, `Alike.run`, `alike_after`.
-/
import Mathlib.Data.List.Sort
import Keyspace.Proofs.Expiry.Schedule

namespace Keyspace
namespace Agenda

variable {a b : Agenda} {d : Deadlines}

/-! ### The length of an agenda -/

theorem Tracks.tracked_eq (h : a.Tracks d) : a.tracked = d.size := Dict.size_eq_of_mem_iff h.keys

/-- There are as many current notes as tracked keys. -/
theorem Tracks.length_current (h : a.Tracks d) : (a.notes.filter a.isCurrent).length = a.tracked := by
  have hnotes : a.notes.Nodup := List.Nodup.of_map _ h.distinct
  have hkeys : ((a.notes.filter a.isCurrent).map Note.key).Nodup := by
    refine List.Nodup.map_on (fun m hm n hn hkey => ?_) (hnotes.filter _)
    obtain ⟨hm, hmcur⟩ := List.mem_filter.mp hm
    obtain ⟨hn, hncur⟩ := List.mem_filter.mp hn
    rw [isCurrent_iff, hkey, isCurrent_iff.mp hncur, Option.some_inj] at hmcur
    exact h.note_unique hm hn hmcur.symm
  have hsame : ∀ key, key ∈ (a.notes.filter a.isCurrent).map Note.key ↔ key ∈ a.generations.keys := by
    intro key
    rw [Std.ExtTreeMap.mem_keys, List.mem_map]
    constructor
    · rintro ⟨n, hn, rfl⟩
      exact Dict.mem_of_getElem? (isCurrent_iff.mp (List.mem_filter.mp hn).2)
    · intro hkey
      obtain ⟨due, hdue⟩ := Dict.exists_getElem? ((h.keys key).mp hkey)
      obtain ⟨g, hcur, hnote⟩ := h.exists_note hdue
      exact ⟨_, List.mem_filter.mpr ⟨hnote, hcur⟩, rfl⟩
  have hperm := (List.perm_ext_iff_of_nodup hkeys Std.ExtTreeMap.nodup_keys).mpr hsame
  rw [tracked, ← Std.ExtTreeMap.length_keys, ← hperm.length_eq, List.length_map]

theorem Tracks.length_compact (h : a.Tracks d) : a.compact.length ≤ 2 * a.compact.tracked + slack := by
  have hcurrent := h.length_current
  unfold Agenda.compact
  split
  · assumption
  · show (a.notes.filter a.isCurrent).length ≤ 2 * a.tracked + slack
    omega

theorem Tracks.length_set (h : a.Tracks d) (key : Bytes) (due : Instant) :
    (a.set key due).length ≤ 2 * (a.set key due).tracked + slack := by
  rw [set_eq_compact]
  exact (h.enter key due).length_compact

theorem Tracks.length_clear (h : a.Tracks d) (key : Bytes) :
    (a.clear key).length ≤ 2 * (a.clear key).tracked + slack := by
  rw [clear_eq_compact]
  exact (h.strike key).length_compact

/-- Popping takes notes off the front and puts none in. -/
theorem popDue_suffix (now : Instant) : ∀ (notes : List Note) (g : Dict Nat),
    (popDue now notes g).2.1 <:+ notes
  | [], _ => List.suffix_rfl
  | n :: notes, g => by
    by_cases hr : Deadline.reached n.due now = true
    · by_cases hc : g[n.key]? = some n.generation
      · rw [popDue_current hr hc]
        exact (popDue_suffix now notes _).trans (List.suffix_cons n notes)
      · rw [popDue_stale hr hc]
        exact (popDue_suffix now notes g).trans (List.suffix_cons n notes)
    · exact ⟨[], congrArg (·.2.1) (popDue_later (by simpa using hr))⟩

theorem length_sweepDue (a : Agenda) (now : Instant) : (a.sweepDue now).2.length ≤ a.length :=
  (popDue_suffix now a.notes a.generations).length_le

theorem length_prune (a : Agenda) : a.prune.length ≤ a.length := (List.dropWhile_suffix _).length_le

/-! ### An agenda that is never compacted -/

/-- Performs the operation, but leaves out compaction. -/
def Operation.runUncompacted (a : Agenda) : Operation → Result × Agenda
  | set key due => (.done, a.enter key due)
  | clear key => (.done, a.strike key)
  | op => op.run a

/-- The agenda after a history in which it was never compacted. -/
def afterUncompacted (a : Agenda) (ops : List Operation) : Agenda :=
  ops.foldl (fun a op => (op.runUncompacted a).2) a

/-- Both agendas track these deadlines, and under the same generations. -/
structure Alike (a b : Agenda) (d : Deadlines) : Prop where
  left : a.Tracks d
  right : b.Tracks d
  generations : a.generations = b.generations
  lastGeneration : a.lastGeneration = b.lastGeneration

theorem alike_empty : Alike empty empty ∅ := ⟨tracks_empty, tracks_empty, rfl, rfl⟩

variable (h : Alike a b d)
include h

theorem Alike.tracked : a.tracked = b.tracked := congrArg Std.ExtTreeMap.size h.generations

theorem Alike.compact : a.compact.Alike b d where
  left := h.left.compact
  right := h.right
  generations := (generations_compact a).trans h.generations
  lastGeneration := (lastGeneration_compact a).trans h.lastGeneration

theorem Alike.enter (key : Bytes) (due : Instant) :
    (a.enter key due).Alike (b.enter key due) (d.insert key due) where
  left := h.left.enter key due
  right := h.right.enter key due
  generations := by rw [Agenda.enter, Agenda.enter, h.generations, h.lastGeneration]
  lastGeneration := congrArg (· + 1) h.lastGeneration

theorem Alike.strike (key : Bytes) : (a.strike key).Alike (b.strike key) (d.erase key) where
  left := h.left.strike key
  right := h.right.strike key
  generations := by rw [Agenda.strike, Agenda.strike, h.generations]
  lastGeneration := congrArg (· + 1) h.lastGeneration

theorem Alike.prune : a.prune.Alike b.prune d := ⟨h.left.prune, h.right.prune, h.generations, h.lastGeneration⟩

theorem Alike.nextDue : a.nextDue.1 = b.nextDue.1 := h.left.nextDue_least.unique h.right.nextDue_least

omit h

/-- The first key has an earlier deadline than the second, or the same one under an older generation. -/
def Sooner (a : Agenda) (d : Deadlines) (k l : Bytes) : Prop :=
  ∃ t u i j, d[k]? = some t ∧ d[l]? = some u ∧ a.generations[k]? = some i ∧ a.generations[l]? = some j ∧
    (t < u ∨ t = u ∧ i < j)

theorem Sooner.asymm {k l : Bytes} (hkl : a.Sooner d k l) : ¬ a.Sooner d l k := by
  obtain ⟨t, u, i, j, ht, hu, hi, hj, hlt⟩ := hkl
  rintro ⟨u', t', j', i', hu', ht', hj', hi', hlt'⟩
  rw [ht, Option.some_inj] at ht'
  rw [hu, Option.some_inj] at hu'
  rw [hi, Option.some_inj] at hi'
  rw [hj, Option.some_inj] at hj'
  lia

theorem Tracks.sweepDue_sooner (ha : a.Tracks d) (now : Instant) :
    (a.sweepDue now).1.keys.Pairwise (a.Sooner d) := by
  have hexpired : ∀ key ∈ (a.sweepDue now).1.keys,
      ∃ t i, d[key]? = some t ∧ a.generations[key]? = some i := by
    intro key hkey
    obtain ⟨t, ht, -⟩ := Deadlines.isExpired_iff.mp ((ha.mem_sweepDue now key).mp hkey)
    obtain ⟨i, hi⟩ := ha.exists_generation ht
    exact ⟨t, i, ht, hi⟩
  refine (ha.sweepDue_ordered now).imp_of_mem fun {k l} hk hl hkl => ?_
  obtain ⟨t, i, ht, hi⟩ := hexpired k hk
  obtain ⟨u, j, hu, hj⟩ := hexpired l hl
  exact ⟨t, u, i, j, ht, hu, hi, hj, hkl t u i j ht hu hi hj⟩

/-- The generations that a sweep leaves are those of the keys that have not expired. -/
theorem Tracks.generations_sweepDue (ha : a.Tracks d) (now : Instant) (key : Bytes) :
    (a.sweepDue now).2.generations[key]? = if d.isExpired key now then none else a.generations[key]? := by
  have hkeys := (ha.sweepDue now).keys key
  rw [Std.ExtTreeMap.mem_iff_isSome_getElem?, Std.ExtTreeMap.mem_iff_isSome_getElem?,
    Deadlines.getElem?_pending] at hkeys
  split
  · next he =>
    rw [if_pos he] at hkeys
    exact Option.not_isSome_iff_eq_none.mp fun hsome => nomatch hkeys.mp hsome
  · next he =>
    rw [if_neg he] at hkeys
    cases hg : (a.sweepDue now).2.generations[key]? with
    | some i => exact (popDue_generations _ _ hg).symm
    | none =>
      cases hi : a.generations[key]? with
      | none => rfl
      | some i =>
        obtain ⟨t, ht⟩ := Dict.exists_getElem? ((ha.keys key).mp (Dict.mem_of_getElem? hi))
        rw [ht, hg] at hkeys
        exact nomatch hkeys.mpr rfl

include h

/-- Alike agendas report the expired keys in the same order, as there is only one. -/
theorem Alike.sweepDue_keys (now : Instant) : (a.sweepDue now).1.keys = (b.sweepDue now).1.keys := by
  have hleft := h.left.sweepDue_sooner now
  have hright := h.right.sweepDue_sooner now
  have hsame : b.Sooner d = a.Sooner d := by
    unfold Sooner
    rw [h.generations]
  rw [hsame] at hright
  have hirrefl : Std.Irrefl (a.Sooner d) := ⟨fun _ hk => hk.asymm hk⟩
  have hantisymm : Std.Antisymm (a.Sooner d) := ⟨fun _ _ hkl hlk => absurd hlk hkl.asymm⟩
  exact hleft.eq_of_mem_iff hright fun key => (h.left.mem_sweepDue now key).trans (h.right.mem_sweepDue now key).symm

theorem Alike.sweepDue (now : Instant) : (a.sweepDue now).1 = (b.sweepDue now).1 ∧
    (a.sweepDue now).2.Alike (b.sweepDue now).2 (d.pending now) := by
  have hkeys := h.sweepDue_keys now
  refine ⟨?_, h.left.sweepDue now, h.right.sweepDue now, ?_, h.lastGeneration⟩
  · have hleft : (a.sweepDue now).1.count = (a.sweepDue now).1.keys.length := popDue_count now _ _
    have hright : (b.sweepDue now).1.count = (b.sweepDue now).1.keys.length := popDue_count now _ _
    rw [← hkeys, ← hleft] at hright
    exact Swept.mk.injEq .. ▸ ⟨hkeys, hright.symm⟩
  · refine Std.ExtTreeMap.ext_getElem? fun key => ?_
    rw [h.left.generations_sweepDue, h.right.generations_sweepDue, h.generations]

/-- **Compaction does not show in an operation.** Alike agendas, one compacted and the other not, answer
alike and stay alike. -/
theorem Alike.run (op : Operation) : (op.run a).1 = (op.runUncompacted b).1 ∧
    ∃ e, (op.run a).2.Alike (op.runUncompacted b).2 e := by
  cases op with
  | set key due => exact ⟨rfl, _, (h.enter key due).compact⟩
  | clear key => exact ⟨rfl, _, (h.strike key).compact⟩
  | sweepDue now =>
    obtain ⟨hswept, hafter⟩ := h.sweepDue now
    exact ⟨congrArg Result.swept hswept, _, hafter⟩
  | nextDue => exact ⟨congrArg Result.due h.nextDue, _, h.prune⟩
  | prune => exact ⟨rfl, _, h.prune⟩

omit h

theorem Alike.after : ∀ (ops : List Operation) {a b : Agenda} {d : Deadlines}, Alike a b d →
    ∃ e, (a.after ops).Alike (b.afterUncompacted ops) e
  | [], _, _, d, h => ⟨d, h⟩
  | op :: ops, _, _, _, h => by
    obtain ⟨-, e, hnext⟩ := h.run op
    exact Alike.after ops hnext

/-- After every history the agenda and its twin that was never compacted are alike. -/
theorem alike_after (ops : List Operation) :
    ∃ d, (empty.after ops).Alike (empty.afterUncompacted ops) d := alike_empty.after ops

end Agenda
end Keyspace
