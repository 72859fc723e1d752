/-
# The agenda tracks the deadlines

An agenda holds stale notes for an unbounded time, in any order among the current ones, and drops
them in three places. What it stands for is a plain map of deadlines: `Tracks a d` says that the
agenda's current notes are exactly the deadlines `d`. Every operation takes a tracking agenda to one
that tracks the map changed in the obvious way: `Tracks.set`, `Tracks.clear`, `Tracks.sweepDue`,
`Tracks.prune`. So what the agenda answers is what the map says: a sweep reports the expired keys
(`Tracks.mem_sweepDue`) in order (`Tracks.sweepDue_ordered`), and `nextDue` gives the earliest deadline
(`Tracks.nextDue_least`).

Generations carry the argument: no two notes ever share one (`distinct`), so the generation recorded
for a key picks out a single note (`Tracks.one_note`).
-/
import Mathlib.Data.List.Nodup
import Mathlib.Data.List.TakeWhile
import Keyspace.Expiry.Agenda
import Keyspace.Proofs.Expiry.Deadlines

namespace Keyspace

/-! ### The order of notes -/

namespace Note

theorem before_iff {m n : Note} :
    m.before n = true ↔ m.due < n.due ∨ m.due = n.due ∧ m.generation < n.generation := by
  simp [before]

theorem before_trans {l m n : Note} (h : l.before m = true) (h' : m.before n = true) :
    l.before n = true := by
  rw [before_iff] at *
  lia

theorem due_le_of_before {m n : Note} (h : m.before n = true) : m.due ≤ n.due := by
  rw [before_iff] at h
  lia

theorem insertInto_perm (n : Note) : ∀ notes : List Note, (n.insertInto notes).Perm (n :: notes)
  | [] => .rfl
  | m :: notes => by
    unfold insertInto
    split
    · exact .rfl
    · exact ((insertInto_perm n notes).cons m).trans (.swap n m notes)

/-- A note with a new generation goes to its place. -/
theorem insertInto_ordered {n : Note} : ∀ {notes : List Note},
    notes.Pairwise (fun l m => l.before m = true) → (∀ m ∈ notes, m.generation < n.generation) →
    (n.insertInto notes).Pairwise fun l m => l.before m = true
  | [], _, _ => List.pairwise_singleton _ _
  | m :: notes, ho, hg => by
    obtain ⟨hm, hrest⟩ := List.pairwise_cons.mp ho
    unfold insertInto
    split
    · rename_i hnm
      refine List.pairwise_cons.mpr ⟨fun l hl => ?_, ho⟩
      rcases List.mem_cons.mp hl with rfl | hl
      · exact hnm
      · exact before_trans hnm (hm l hl)
    · rename_i hnm
      have hmn : m.before n = true := by
        have hlt := hg m List.mem_cons_self
        rw [before_iff] at *
        lia
      refine List.pairwise_cons.mpr ⟨fun l hl => ?_,
        insertInto_ordered hrest fun l hl => hg l (List.mem_cons_of_mem _ hl)⟩
      rcases List.mem_cons.mp ((insertInto_perm n notes).mem_iff.mp hl) with rfl | hl
      · exact hmn
      · exact hm l hl

end Note

namespace Agenda

/-- The agenda's current notes are the deadlines `d`, one note for each. -/
structure Tracks (a : Agenda) (d : Deadlines) : Prop where
  ordered : a.notes.Pairwise fun m n => m.before n = true
  fresh : ∀ n ∈ a.notes, n.generation ≤ a.lastGeneration
  distinct : (a.notes.map Note.generation).Nodup
  keys : ∀ key, key ∈ a.generations ↔ key ∈ d
  noted : ∀ (key : Bytes) (t : Instant) (g : Nat),
    d[key]? = some t → a.generations[key]? = some g → ⟨t, g, key⟩ ∈ a.notes

theorem tracks_empty : Tracks empty ∅ where
  ordered := .nil
  fresh := by simp [empty]
  distinct := .nil
  keys := by simp [empty]
  noted := by simp

theorem isCurrent_iff {a : Agenda} {n : Note} :
    a.isCurrent n = true ↔ a.generations[n.key]? = some n.generation := by
  simp [isCurrent]

variable {a : Agenda} {d : Deadlines}

/-! ### Deadlines and current notes -/

theorem Tracks.note_unique (h : a.Tracks d) {m n : Note} (hm : m ∈ a.notes) (hn : n ∈ a.notes)
    (he : m.generation = n.generation) : m = n :=
  List.inj_on_of_nodup_map h.distinct hm hn he

/-- A current note carries the deadline of its key. -/
theorem Tracks.due_of_current (h : a.Tracks d) {n : Note} (hn : n ∈ a.notes)
    (hc : a.isCurrent n = true) : d[n.key]? = some n.due := by
  have hg := isCurrent_iff.mp hc
  obtain ⟨t, ht⟩ := Dict.exists_getElem? ((h.keys _).mp (Dict.mem_of_getElem? hg))
  have hnote : (⟨t, n.generation, n.key⟩ : Note) = n := h.note_unique (h.noted _ _ _ ht hg) hn rfl
  rw [ht, ← hnote]

theorem Tracks.exists_generation (h : a.Tracks d) {key : Bytes} {t : Instant}
    (hd : d[key]? = some t) : ∃ g, a.generations[key]? = some g :=
  Dict.exists_getElem? ((h.keys _).mpr (Dict.mem_of_getElem? hd))

/-- Every deadline has its current note. -/
theorem Tracks.exists_note (h : a.Tracks d) {key : Bytes} {t : Instant} (hd : d[key]? = some t) :
    ∃ g, a.isCurrent ⟨t, g, key⟩ = true ∧ ⟨t, g, key⟩ ∈ a.notes := by
  obtain ⟨g, hg⟩ := h.exists_generation hd
  exact ⟨g, isCurrent_iff.mpr hg, h.noted _ _ _ hd hg⟩

/-- The generation recorded for a key belongs to one note alone, the one with the key's deadline. -/
theorem Tracks.one_note (h : a.Tracks d) {key : Bytes} {t : Instant} {g : Nat}
    (hd : d[key]? = some t) (hg : a.generations[key]? = some g) :
    a.notes.filter (fun n => n.generation == g) = [⟨t, g, key⟩] := by
  have hmem := h.noted _ _ _ hd hg
  have hall : ∀ n ∈ a.notes.filter (fun n => n.generation == g), n = ⟨t, g, key⟩ := by
    intro n hn
    obtain ⟨hn, he⟩ := List.mem_filter.mp hn
    exact h.note_unique hn hmem (by simpa using he)
  have hnd : (a.notes.filter (fun n => n.generation == g)).Nodup :=
    (List.Nodup.of_map _ h.distinct).sublist List.filter_sublist
  refine List.perm_singleton.mp ((List.perm_ext_iff_of_nodup hnd (List.nodup_singleton _)).mpr fun n => ?_)
  rw [List.mem_singleton]
  exact ⟨hall n, fun hn => List.mem_filter.mpr ⟨hn ▸ hmem, by simp [hn]⟩⟩

/-- Notes may go as long as the current ones stay. -/
theorem Tracks.keep {notes : List Note} (h : a.Tracks d) (hs : notes.Sublist a.notes)
    (hc : ∀ n ∈ a.notes, a.isCurrent n = true → n ∈ notes) : Tracks { a with notes } d where
  ordered := h.ordered.sublist hs
  fresh := fun n hn => h.fresh n (hs.subset hn)
  distinct := h.distinct.sublist (hs.map _)
  keys := h.keys
  noted := fun key t g hd hg => hc _ (h.noted key t g hd hg) (isCurrent_iff.mpr hg)

/-! ### Setting and clearing -/

/-- The agenda with a new current note of the key, before it is compacted. -/
def enter (a : Agenda) (key : Bytes) (due : Instant) : Agenda where
  notes := (Note.mk due (a.lastGeneration + 1) key).insertInto a.notes
  generations := a.generations.insert key (a.lastGeneration + 1)
  lastGeneration := a.lastGeneration + 1

/-- The agenda without a current note of the key, before it is compacted. -/
def strike (a : Agenda) (key : Bytes) : Agenda :=
  { a with generations := a.generations.erase key, lastGeneration := a.lastGeneration + 1 }

theorem set_eq_compact (a : Agenda) (key : Bytes) (due : Instant) :
    a.set key due = (a.enter key due).compact := rfl

theorem clear_eq_compact (a : Agenda) (key : Bytes) : a.clear key = (a.strike key).compact := rfl

theorem Tracks.compact (h : a.Tracks d) : a.compact.Tracks d := by
  unfold Agenda.compact
  split
  · exact h
  · exact h.keep List.filter_sublist fun n hn hc => List.mem_filter.mpr ⟨hn, hc⟩

theorem Tracks.enter (h : a.Tracks d) (key : Bytes) (due : Instant) :
    (a.enter key due).Tracks (d.insert key due) := by
  have hperm := Note.insertInto_perm ⟨due, a.lastGeneration + 1, key⟩ a.notes
  have hnew : ∀ n ∈ a.notes, n.generation < a.lastGeneration + 1 := fun n hn =>
    Nat.lt_succ_of_le (h.fresh n hn)
  refine ⟨Note.insertInto_ordered h.ordered hnew, fun n hn => ?_, ?_, fun k => ?_, fun k t g hd hg => ?_⟩
  · rcases List.mem_cons.mp (hperm.mem_iff.mp hn) with rfl | hn
    · exact Nat.le_refl _
    · exact Nat.le_of_lt (hnew n hn)
  · rw [Agenda.enter, (hperm.map Note.generation).nodup_iff, List.map_cons, List.nodup_cons]
    refine ⟨fun hm => ?_, h.distinct⟩
    obtain ⟨n, hn, he⟩ := List.mem_map.mp hm
    exact Nat.ne_of_lt (hnew n hn) he
  · rw [Agenda.enter, Std.ExtTreeMap.mem_insert, Std.ExtTreeMap.mem_insert, h.keys]
  · apply hperm.mem_iff.mpr
    rw [Agenda.enter] at hg
    by_cases hk : k = key
    · rw [hk, Std.ExtTreeMap.getElem?_insert_self, Option.some_inj] at hd hg
      rw [hk, ← hd, ← hg]
      exact List.mem_cons_self
    · rw [Dict.getElem?_insert_ne hk] at hd hg
      exact List.mem_cons_of_mem _ (h.noted k t g hd hg)

theorem Tracks.strike (h : a.Tracks d) (key : Bytes) : (a.strike key).Tracks (d.erase key) := by
  refine ⟨h.ordered, fun n hn => Nat.le_succ_of_le (h.fresh n hn), h.distinct, fun k => ?_,
    fun k t g hd hg => ?_⟩
  · rw [Agenda.strike, Std.ExtTreeMap.mem_erase, Std.ExtTreeMap.mem_erase, h.keys]
  · exact h.noted k t g (Dict.getElem?_of_erase hd) (Dict.getElem?_of_erase hg)

theorem Tracks.set (h : a.Tracks d) (key : Bytes) (due : Instant) :
    (a.set key due).Tracks (d.insert key due) := by
  rw [set_eq_compact]
  exact (h.enter key due).compact

theorem Tracks.clear (h : a.Tracks d) (key : Bytes) : (a.clear key).Tracks (d.erase key) := by
  rw [clear_eq_compact]
  exact (h.strike key).compact

/-! ### Taking notes off the front -/

section Front

variable {n : Note} {notes : List Note} {g : Dict Nat} {last : Nat} {now : Instant}

theorem Tracks.dropStale (h : Tracks ⟨n :: notes, g, last⟩ d)
    (hs : g[n.key]? ≠ some n.generation) : Tracks ⟨notes, g, last⟩ d := by
  refine h.keep (List.sublist_cons_self n notes) fun m hm hc => ?_
  rcases List.mem_cons.mp hm with rfl | hm
  · exact absurd (isCurrent_iff.mp hc) hs
  · exact hm

theorem Tracks.dropCurrent (h : Tracks ⟨n :: notes, g, last⟩ d) :
    Tracks ⟨notes, g.erase n.key, last⟩ (d.erase n.key) := by
  refine ⟨(List.pairwise_cons.mp h.ordered).2, fun m hm => h.fresh m (List.mem_cons_of_mem _ hm),
    (List.nodup_cons.mp h.distinct).2, fun k => ?_, fun k t gen hd hg => ?_⟩
  · rw [Std.ExtTreeMap.mem_erase, Std.ExtTreeMap.mem_erase, h.keys]
  · rcases List.mem_cons.mp
        (h.noted k t gen (Dict.getElem?_of_erase hd) (Dict.getElem?_of_erase hg)) with heq | hm
    · rw [← heq, Std.ExtTreeMap.getElem?_erase_self] at hd
      cases hd
    · exact hm

/-- No deadline comes before the note in front. -/
theorem Tracks.front_le (h : Tracks ⟨n :: notes, g, last⟩ d) {key : Bytes} {t : Instant}
    (hd : d[key]? = some t) : n.due ≤ t := by
  obtain ⟨gen, -, hm⟩ := h.exists_note hd
  rcases List.mem_cons.mp hm with rfl | hm
  · exact Nat.le_refl _
  · exact Note.due_le_of_before ((List.pairwise_cons.mp h.ordered).1 _ hm)

theorem Tracks.no_deadline (h : Tracks ⟨[], g, last⟩ d) (key : Bytes) : d[key]? = none := by
  cases hd : d[key]? with
  | none => rfl
  | some t => obtain ⟨gen, -, hm⟩ := h.exists_note hd; cases hm

theorem popDue_current (hr : Deadline.reached n.due now = true)
    (hc : g[n.key]? = some n.generation) :
    popDue now (n :: notes) g =
      (⟨n.key :: (popDue now notes (g.erase n.key)).1.keys,
        (popDue now notes (g.erase n.key)).1.count + 1⟩, (popDue now notes (g.erase n.key)).2) := by
  simp [popDue, hr, hc]

theorem popDue_stale (hr : Deadline.reached n.due now = true)
    (hs : g[n.key]? ≠ some n.generation) : popDue now (n :: notes) g = popDue now notes g := by
  simp [popDue, hr, hs]

theorem popDue_later (hr : Deadline.reached n.due now = false) :
    popDue now (n :: notes) g = (⟨[], 0⟩, n :: notes, g) := by
  simp [popDue, hr]

end Front

/-- Popping the due notes reports the expired keys and leaves the pending deadlines. A stale note
changes neither; a current one takes its own deadline off the map; at the first note that is not due
nothing is expired any more. -/
theorem Tracks.popDue (now : Instant) {last : Nat} : ∀ {notes : List Note} {g : Dict Nat}
    {d : Deadlines}, Tracks ⟨notes, g, last⟩ d →
    Tracks ⟨(popDue now notes g).2.1, (popDue now notes g).2.2, last⟩ (d.pending now) ∧
      ∀ key, key ∈ (Agenda.popDue now notes g).1.keys ↔ d.isExpired key now = true
  | [], g, d, h => by
    have hnone : ∀ k, d.isExpired k now = false := fun k => by
      simp [Deadlines.isExpired, h.no_deadline k]
    rw [Deadlines.pending_eq_self hnone]
    exact ⟨h, fun key => by simp [Agenda.popDue, hnone]⟩
  | n :: notes, g, d, h => by
    by_cases hr : Deadline.reached n.due now = true
    · by_cases hc : g[n.key]? = some n.generation
      · have hexp : d.isExpired n.key now = true := by
          have hdue := h.due_of_current List.mem_cons_self (isCurrent_iff.mpr hc)
          exact Deadlines.isExpired_iff.mpr ⟨n.due, hdue, by simpa [Deadline.reached] using hr⟩
        obtain ⟨htracks, hmem⟩ := h.dropCurrent.popDue now
        rw [popDue_current hr hc]
        refine ⟨Deadlines.pending_erase_of_isExpired hexp ▸ htracks, fun key => ?_⟩
        rw [List.mem_cons, hmem]
        by_cases hk : key = n.key
        · simp [hk, hexp]
        · simp [hk, Deadlines.isExpired_erase_ne hk]
      · rw [popDue_stale hr hc]
        exact (h.dropStale hc).popDue now
    · have hr : Deadline.reached n.due now = false := by simpa using hr
      have hnone : ∀ k, d.isExpired k now = false := fun k => by
        rw [← Bool.not_eq_true, Deadlines.isExpired_iff]
        rintro ⟨t, ht, hle⟩
        have hfront := h.front_le ht
        simp only [Deadline.reached, decide_eq_false_iff_not] at hr
        exact hr (Nat.le_trans hfront hle)
      rw [popDue_later hr, Deadlines.pending_eq_self hnone]
      exact ⟨h, fun key => by simp [hnone]⟩

/-- The reported keys are those of current notes, in their order. -/
theorem popDue_notes (now : Instant) : ∀ (notes : List Note) (g : Dict Nat),
    ∃ reported : List Note, reported.Sublist notes ∧
      (popDue now notes g).1.keys = reported.map Note.key ∧
      ∀ n ∈ reported, g[n.key]? = some n.generation
  | [], _ => ⟨[], .slnil, rfl, by simp⟩
  | n :: notes, g => by
    by_cases hr : Deadline.reached n.due now = true
    · by_cases hc : g[n.key]? = some n.generation
      · obtain ⟨reported, hsub, hkeys, hcur⟩ := popDue_notes now notes (g.erase n.key)
        refine ⟨n :: reported, hsub.cons_cons n, by rw [popDue_current hr hc, hkeys]; rfl, fun m hm => ?_⟩
        rcases List.mem_cons.mp hm with rfl | hm
        · exact hc
        · exact Dict.getElem?_of_erase (hcur m hm)
      · obtain ⟨reported, hsub, hkeys, hcur⟩ := popDue_notes now notes g
        exact ⟨reported, hsub.cons n, by rw [popDue_stale hr hc, hkeys], hcur⟩
    · exact ⟨[], List.nil_sublist _, by rw [popDue_later (by simpa using hr)]; rfl, by simp⟩

theorem popDue_count (now : Instant) : ∀ (notes : List Note) (g : Dict Nat),
    (popDue now notes g).1.count = (popDue now notes g).1.keys.length
  | [], _ => rfl
  | n :: notes, g => by
    by_cases hr : Deadline.reached n.due now = true
    · by_cases hc : g[n.key]? = some n.generation
      · rw [popDue_current hr hc, List.length_cons, ← popDue_count now notes]
      · rw [popDue_stale hr hc, popDue_count now notes]
    · rw [popDue_later (by simpa using hr)]
      rfl

/-! ### Sweeping -/

variable (h : a.Tracks d) (now : Instant)

include h

theorem Tracks.sweepDue : (a.sweepDue now).2.Tracks (d.pending now) :=
  (Tracks.popDue now h).1

theorem Tracks.mem_sweepDue (key : Bytes) :
    key ∈ (a.sweepDue now).1.keys ↔ d.isExpired key now = true :=
  (Tracks.popDue now h).2 key

/-- Two keys are reported in the order of their deadlines, and for equal deadlines in that of their
generations. -/
theorem Tracks.sweepDue_ordered : (a.sweepDue now).1.keys.Pairwise fun k l =>
    ∀ t u i j, d[k]? = some t → d[l]? = some u → a.generations[k]? = some i →
      a.generations[l]? = some j → t < u ∨ t = u ∧ i < j := by
  obtain ⟨reported, hsub, hkeys, hcur⟩ := popDue_notes now a.notes a.generations
  have hkeys : (a.sweepDue now).1.keys = reported.map Note.key := hkeys
  rw [hkeys, List.pairwise_map]
  refine (h.ordered.sublist hsub).imp_of_mem fun {m n} hm hn hmn => ?_
  intro t u i j ht hu hi hj
  have hdm := h.due_of_current (hsub.subset hm) (isCurrent_iff.mpr (hcur m hm))
  have hdn := h.due_of_current (hsub.subset hn) (isCurrent_iff.mpr (hcur n hn))
  rw [ht, Option.some_inj] at hdm
  rw [hu, Option.some_inj] at hdn
  rw [hcur m hm, Option.some_inj] at hi
  rw [hcur n hn, Option.some_inj] at hj
  rw [hdm, hdn, ← hi, ← hj]
  exact Note.before_iff.mp hmn

/-! ### The earliest deadline -/

omit now

theorem Tracks.prune : a.prune.Tracks d := by
  refine h.keep (List.dropWhile_sublist _) fun n hn hc => ?_
  have hsplit := List.takeWhile_append_dropWhile (p := fun n => !a.isCurrent n) (l := a.notes)
  rw [← hsplit] at hn
  rcases List.mem_append.mp hn with hn | hn
  · have := List.mem_takeWhile_imp hn
    simp [hc] at this
  · exact hn

theorem Tracks.nextDue : a.nextDue.2.Tracks d := h.prune

theorem Tracks.nextDue_least : d.Least a.nextDue.1 := by
  have hp := h.prune
  unfold Agenda.nextDue
  cases hnotes : a.prune.notes with
  | nil =>
    have hp : Tracks ⟨[], a.prune.generations, a.prune.lastGeneration⟩ d := hnotes ▸ hp
    simp only [hnotes, List.head?_nil, Option.map_none]
    exact hp.no_deadline
  | cons n notes =>
    have hp : Tracks ⟨n :: notes, a.prune.generations, a.prune.lastGeneration⟩ d := hnotes ▸ hp
    have hc : a.isCurrent n = true := by
      have hhead := List.head?_dropWhile_not (fun n => !a.isCurrent n) a.notes
      rw [show a.notes.dropWhile (fun n => !a.isCurrent n) = n :: notes from hnotes] at hhead
      simpa using hhead
    simp only [hnotes, List.head?_cons, Option.map_some]
    exact ⟨⟨n.key, hp.due_of_current List.mem_cons_self hc⟩, fun k u hk => hp.front_le hk⟩

end Agenda
end Keyspace
