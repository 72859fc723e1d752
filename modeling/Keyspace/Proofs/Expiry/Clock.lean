/-
# Deadlines in numbers

Deadlines are instants in nanoseconds; times to live are signed 64-bit words, in milliseconds or seconds,
and are rounded up on the way out. A deadline that the clock can show is the exact sum; the time left is the
exact ceiling, as long as it fits; and rounding up twice, to milliseconds and then to seconds, is rounding up
once (`ceil_ceil`).

Key theorems: `Deadline.afterMillis_eq_some_iff`, `Deadline.afterSeconds_eq_some_iff`,
`Ttl.toInt_ceilSeconds_remaining`.
-/
import Keyspace.Clock

namespace Keyspace

namespace Deadline
variable {now due : Nat} {n : Int64}

theorem afterMillis_eq_some_iff :
    afterMillis now n = some due ↔ due = now + n.toInt.toNat * Clock.milli ∧ due ≤ Clock.last := by
  unfold afterMillis
  dsimp only
  split
  · next h =>
    rw [Option.some_inj]
    exact ⟨fun he => ⟨he.symm, he ▸ h⟩, fun he => he.1.symm⟩
  · next h => exact ⟨nofun, fun he => absurd (he.1 ▸ he.2) h⟩

/-- Seconds that fit as milliseconds are a thousand milliseconds each. -/
theorem afterSeconds_of_le (h : n.toInt.toNat * 1000 ≤ 9223372036854775807) :
    afterSeconds now n = afterMillis now (Int64.ofNat (n.toInt.toNat * 1000)) := by
  have hfits : ((n.toInt.toNat * 1000 : Nat) : Int) ≤ Int64.maxValue.toInt := by
    rw [Int64.toInt_maxValue]
    omega
  rw [afterSeconds, if_pos hfits]

theorem afterSeconds_eq_some_iff : afterSeconds now n = some due ↔
    n.toInt.toNat * 1000 ≤ 9223372036854775807 ∧
    due = now + n.toInt.toNat * Clock.second ∧ due ≤ Clock.last := by
  by_cases h : n.toInt.toNat * 1000 ≤ 9223372036854775807
  · have hms : (Int64.ofNat (n.toInt.toNat * 1000)).toInt = (n.toInt.toNat * 1000 : Nat) :=
      Int64.toInt_ofNat_of_lt (by omega)
    have hnanos : n.toInt.toNat * 1000 * Clock.milli = n.toInt.toNat * Clock.second := by
      rw [Clock.milli, Clock.second]
      omega
    rw [afterSeconds_of_le h, afterMillis_eq_some_iff, hms, Int.toNat_natCast, hnanos]
    exact (and_iff_right h).symm
  · have hfits : ¬ ((n.toInt.toNat * 1000 : Nat) : Int) ≤ Int64.maxValue.toInt := by
      rw [Int64.toInt_maxValue]
      omega
    rw [afterSeconds, if_neg hfits]
    exact ⟨nofun, fun he => absurd he.1 h⟩

theorem toInt_remainingMillis (due now : Nat) : (remainingMillis due now).toInt =
    (min ((due - now + (Clock.milli - 1)) / Clock.milli) 9223372036854775807 : Nat) :=
  Int64.toInt_ofNat_of_lt (Nat.lt_of_le_of_lt (Nat.min_le_right _ _) (by decide))

end Deadline

namespace Ttl

theorem toInt_ceilSeconds {ms : Int64} (h : 0 ≤ ms.toInt) :
    (ceilSeconds ms).toInt = (ms.toInt + 999) / 1000 := by
  have hle := ms.toInt_le
  rw [Int64.toInt_maxValue] at hle
  have hthousand : (1000 : Int64).toInt = 1000 := rfl
  have hdiv : (ms / 1000).toInt = ms.toInt / 1000 := by
    rw [Int64.toInt_div_of_ne_right _ _ (by decide), hthousand, Int.tdiv_eq_ediv_of_nonneg h]
  have hmod : ms % 1000 = 0 ↔ ms.toInt % 1000 = 0 := by
    rw [← Int64.toInt_inj, Int64.toInt_mod, hthousand, Int64.toInt_zero, Int.tmod_eq_emod_of_nonneg h]
  rw [ceilSeconds]
  split
  · next hms =>
    rw [Int64.le_iff_toInt_le, Int64.toInt_zero] at hms
    omega
  · split
    · next hzero =>
      rw [hmod] at hzero
      rw [Int64.add_zero, hdiv]
      omega
    · next hzero =>
      rw [hmod] at hzero
      rw [Int64.toInt_add, hdiv, Int64.toInt_one, Int.bmod_eq_of_le (by omega) (by omega)]
      omega

/-- Rounding up to milliseconds and then to seconds is rounding up to seconds. -/
theorem ceil_ceil (nanos : Nat) :
    ((nanos + (Clock.milli - 1)) / Clock.milli + 999) / 1000 = (nanos + (Clock.second - 1)) / Clock.second := by
  rw [Clock.milli, Clock.second]
  omega

/-- The seconds left until a deadline are exact, rounded up, if its milliseconds fit in a word. -/
theorem toInt_ceilSeconds_remaining {due now : Nat}
    (h : due - now ≤ 9223372036854775807 * Clock.milli) :
    (ceilSeconds (Deadline.remainingMillis due now)).toInt =
      ((due - now + (Clock.second - 1)) / Clock.second : Nat) := by
  have hms : (due - now + (Clock.milli - 1)) / Clock.milli ≤ 9223372036854775807 := by
    rw [Clock.milli] at h ⊢
    omega
  have hremaining := Deadline.toInt_remainingMillis due now
  rw [Nat.min_eq_left hms] at hremaining
  rw [toInt_ceilSeconds (hremaining ▸ Int.natCast_nonneg _), hremaining, ← ceil_ceil]
  rfl

end Ttl
end Keyspace
