/-
# Reached and pending deadlines

What the deadlines of a shard say at an instant: which keys have expired (`isExpired_iff`), what is
left when those are gone (`pending`), and which deadline comes first (`Least`). Looking through all
deadlines answers both questions: `mem_due_iff`, `nextDue?_least`.
-/
import Keyspace.Expiry.Deadlines
import Keyspace.Proofs.Dict

namespace Keyspace
namespace Deadlines

variable {d : Deadlines} {now : Instant} {key : Bytes}

theorem isExpired_iff : d.isExpired key now = true ↔ ∃ t, d[key]? = some t ∧ t ≤ now := by
  unfold isExpired
  split
  · rename_i t ht
    simp [ht, Deadline.reached]
  · rename_i ht
    simp [ht]

theorem mem_due_iff : key ∈ d.due now ↔ d.isExpired key now = true := by
  rw [isExpired_iff, due, Std.ExtTreeMap.mem_keys, Std.ExtTreeMap.mem_iff_isSome_getElem?,
    Std.ExtTreeMap.getElem?_filter']
  cases d[key]? <;> simp [Option.filter_some, Deadline.reached]

/-! ### What is pending -/

/-- The deadlines that have not been reached. -/
def pending (d : Deadlines) (now : Instant) : Deadlines :=
  d.filter fun _ t => !Deadline.reached t now

theorem getElem?_pending : (d.pending now)[key]? = if d.isExpired key now then none else d[key]? := by
  unfold pending isExpired
  rw [Std.ExtTreeMap.getElem?_filter']
  cases d[key]? with
  | none => simp
  | some t => cases h : Deadline.reached t now <;> simp [Option.filter_some, h]

/-- Whether a key has expired depends on its own deadline only. -/
theorem isExpired_congr {e : Deadlines} (h : d[key]? = e[key]?) :
    d.isExpired key now = e.isExpired key now := by
  unfold isExpired
  rw [h]

theorem isExpired_erase_self : isExpired (d.erase key) key now = false := by
  simp [isExpired]

theorem isExpired_erase_ne {k : Bytes} (h : k ≠ key) :
    isExpired (d.erase key) k now = d.isExpired k now :=
  isExpired_congr (Dict.getElem?_erase_ne h)

theorem pending_erase : pending (d.erase key) now = (d.pending now).erase key := by
  refine Std.ExtTreeMap.ext_getElem? fun k => ?_
  by_cases hk : k = key
  · rw [hk, getElem?_pending, isExpired_erase_self]
    simp
  · rw [Dict.getElem?_erase_ne hk, getElem?_pending, getElem?_pending, isExpired_erase_ne hk,
      Dict.getElem?_erase_ne hk]

/-- An expired key is not among the pending ones, so taking it away first changes nothing. -/
theorem pending_erase_of_isExpired (h : d.isExpired key now = true) :
    pending (d.erase key) now = d.pending now := by
  rw [pending_erase]
  refine Dict.erase_of_not_mem fun hmem => ?_
  obtain ⟨t, ht⟩ := Dict.exists_getElem? hmem
  rw [getElem?_pending, if_pos h] at ht
  cases ht

/-- With nothing expired, everything is pending. -/
theorem pending_eq_self (h : ∀ k, d.isExpired k now = false) : d.pending now = d := by
  refine Std.ExtTreeMap.ext_getElem? fun k => ?_
  rw [getElem?_pending, h k]
  rfl

theorem isExpired_pending : (d.pending now).isExpired key now = false := by
  by_cases hk : d.isExpired key now = true
  · have hnone : (d.pending now)[key]? = none := by rw [getElem?_pending, if_pos hk]
    simp [isExpired, hnone]
  · have hsame : (d.pending now)[key]? = d[key]? := by rw [getElem?_pending, if_neg hk]
    rw [isExpired_congr hsame]
    simpa using hk

theorem pending_pending : (d.pending now).pending now = d.pending now :=
  pending_eq_self fun _ => isExpired_pending

/-! ### The earliest deadline -/

/-- The earliest deadline, if there is a deadline at all. -/
def Least (d : Deadlines) : Option Instant → Prop
  | none => ∀ k : Bytes, d[k]? = none
  | some t => (∃ k : Bytes, d[k]? = some t) ∧ ∀ (k : Bytes) (u : Instant), d[k]? = some u → t ≤ u

theorem Least.unique {o p : Option Instant} (ho : d.Least o) (hp : d.Least p) : o = p := by
  cases o with
  | none =>
    cases p with
    | none => rfl
    | some u => obtain ⟨⟨k, hk⟩, -⟩ := hp; rw [ho k] at hk; cases hk
  | some t =>
    cases p with
    | none => obtain ⟨⟨k, hk⟩, -⟩ := ho; rw [hp k] at hk; cases hk
    | some u =>
      obtain ⟨⟨k, hk⟩, ht⟩ := ho
      obtain ⟨⟨l, hl⟩, hu⟩ := hp
      rw [Nat.le_antisymm (ht l u hl) (hu k t hk)]

theorem mem_instants_iff {t : Instant} : t ∈ d.toList.map Prod.snd ↔ ∃ k : Bytes, d[k]? = some t := by
  simp only [List.mem_map, Prod.exists, exists_eq_right, Std.ExtTreeMap.mem_toList_iff_getElem?_eq_some]

theorem nextDue?_least : d.Least d.nextDue? := by
  unfold nextDue?
  cases h : (d.toList.map Prod.snd).min? with
  | none =>
    intro k
    cases hk : d[k]? with
    | none => rfl
    | some t => exact absurd (mem_instants_iff.mpr ⟨k, hk⟩) (by simp [List.min?_eq_none_iff.mp h])
  | some t =>
    obtain ⟨hmem, hle⟩ := List.min?_eq_some_iff.mp h
    exact ⟨mem_instants_iff.mp hmem, fun k u hk => hle u (mem_instants_iff.mpr ⟨k, hk⟩)⟩

end Deadlines
end Keyspace
