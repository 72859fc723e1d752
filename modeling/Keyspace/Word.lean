/-
# Signed words

Arithmetic in signed 64-bit words that notices when it leaves their range: the exact result as a word, or
nothing. A result is never a wrapped one.

Key definitions: `ofInt?`, `add?`, `sub?`, `mul?`.
Key theorem: `ofInt?_eq_some_iff`.
-/

namespace Keyspace
namespace Word

/-- An integer as a word, if it is within the range of one. -/
def ofInt? (n : Int) : Option Int64 :=
  if Int64.minValue.toInt ≤ n ∧ n ≤ Int64.maxValue.toInt then some (Int64.ofInt n) else none

/-- The sum of two words. -/
def add? (a b : Int64) : Option Int64 := ofInt? (a.toInt + b.toInt)

/-- The difference of two words. -/
def sub? (a b : Int64) : Option Int64 := ofInt? (a.toInt - b.toInt)

/-- The product of two words. -/
def mul? (a b : Int64) : Option Int64 := ofInt? (a.toInt * b.toInt)

theorem ofInt?_eq_some_iff {n : Int} {w : Int64} : ofInt? n = some w ↔ w.toInt = n := by
  unfold ofInt?
  constructor
  · intro h
    split at h
    · next hrange =>
      cases h
      rw [Int64.toInt_minValue, Int64.toInt_maxValue] at hrange
      exact Int64.toInt_ofInt_of_le hrange.1 (by omega)
    · cases h
  · rintro rfl
    rw [if_pos ⟨w.minValue_le_toInt, w.toInt_le⟩, Int64.ofInt_toInt]

/-- Whatever is within the range has a word. -/
theorem exists_ofInt? {n : Int} (hlo : -9223372036854775808 ≤ n) (hhi : n ≤ 9223372036854775807) :
    ∃ w : Int64, ofInt? n = some w ∧ w.toInt = n := by
  have hw : (Int64.ofInt n).toInt = n := Int64.toInt_ofInt_of_le hlo (by omega)
  exact ⟨Int64.ofInt n, ofInt?_eq_some_iff.mpr hw, hw⟩

theorem add?_eq_some {a b : Int64} (hlo : -9223372036854775808 ≤ a.toInt + b.toInt)
    (hhi : a.toInt + b.toInt ≤ 9223372036854775807) : add? a b = some (a + b) :=
  ofInt?_eq_some_iff.mpr (by rw [Int64.toInt_add, Int.bmod_eq_of_le (by omega) (by omega)])

theorem ofInt?_eq_none_iff {n : Int} :
    ofInt? n = none ↔ n < -9223372036854775808 ∨ 9223372036854775807 < n := by
  unfold ofInt?
  rw [Int64.toInt_minValue, Int64.toInt_maxValue, ite_eq_right_iff]
  constructor
  · intro h
    exact Decidable.byContradiction fun hrange => nomatch h (by omega)
  · rintro h hrange
    omega

theorem toInt_range (w : Int64) : -9223372036854775808 ≤ w.toInt ∧ w.toInt ≤ 9223372036854775807 := by
  have hlo := w.minValue_le_toInt
  have hhi := w.toInt_le
  rw [Int64.toInt_minValue] at hlo
  rw [Int64.toInt_maxValue] at hhi
  exact ⟨hlo, hhi⟩

end Word
end Keyspace
