/-
# Finite maps, key by key

Look-ups in a changed `Dict`, for a key that is or is not the one changed, and the size of a map as
the number of its keys.
-/
import Keyspace.Bytes

namespace Keyspace
namespace Dict

variable {α β : Type} {d : Dict α} {key k : Bytes}

theorem getElem?_erase_ne (h : k ≠ key) : (d.erase key)[k]? = d[k]? := by
  rw [Std.ExtTreeMap.getElem?_erase, if_neg (by simpa using h.symm)]

theorem getElem?_insert_ne {v : α} (h : k ≠ key) : (d.insert key v)[k]? = d[k]? := by
  rw [Std.ExtTreeMap.getElem?_insert, if_neg (by simpa using h.symm)]

/-- What is left after `erase` was there before. -/
theorem getElem?_of_erase {v : α} (h : (d.erase key)[k]? = some v) : d[k]? = some v := by
  by_cases hk : k = key
  · simp [hk] at h
  · rwa [getElem?_erase_ne hk] at h

theorem erase_of_not_mem (h : key ∉ d) : d.erase key = d := by
  refine Std.ExtTreeMap.ext_getElem? fun k => ?_
  by_cases hk : k = key
  · rw [hk, Std.ExtTreeMap.getElem?_erase_self, Std.ExtTreeMap.getElem?_eq_none h]
  · exact getElem?_erase_ne hk

theorem mem_of_getElem? {v : α} (h : d[key]? = some v) : key ∈ d :=
  Std.ExtTreeMap.mem_iff_isSome_getElem?.mpr (by rw [h]; rfl)

theorem exists_getElem? (h : key ∈ d) : ∃ v, d[key]? = some v :=
  Option.isSome_iff_exists.mp (Std.ExtTreeMap.mem_iff_isSome_getElem?.mp h)

theorem size_pos_of_mem (h : key ∈ d) : 0 < d.size :=
  Nat.pos_of_ne_zero fun h0 => by
    rw [Std.ExtTreeMap.eq_empty_iff_size_eq_zero.mpr h0] at h
    exact Std.ExtTreeMap.not_mem_empty h

theorem toList_eq_nil_iff : d.toList = [] ↔ d = ∅ := by
  rw [← List.length_eq_zero_iff, Std.ExtTreeMap.length_toList, Std.ExtTreeMap.eq_empty_iff_size_eq_zero]

/-- Maps with the same keys are of the same size. -/
theorem size_eq_of_mem_iff {e : Dict β} (h : ∀ key, key ∈ d ↔ key ∈ e) : d.size = e.size := by
  rw [← Std.ExtTreeMap.length_keys, ← Std.ExtTreeMap.length_keys]
  refine ((List.perm_ext_iff_of_nodup Std.ExtTreeMap.nodup_keys Std.ExtTreeMap.nodup_keys).mpr
    fun key => ?_).length_eq
  rw [Std.ExtTreeMap.mem_keys, Std.ExtTreeMap.mem_keys, h]

end Dict
end Keyspace
