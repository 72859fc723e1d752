/-
# Deadlines and the time left

Setting a deadline and asking for the time that is left until it are exact: a deadline is the sum or there is
none, the time left is the least number of milliseconds that reaches it, and in seconds it is the ceiling of
the difference, although it is rounded up twice. The two ends are a negative time, which counts as none, and
the greatest word, at which the time left stops.

All of this holds of what is calculated in words, with the clock's own carry and borrow, for that is the
same (`Clock.Reading`).

Key theorems: `Deadline.isLeast_millis`, `Deadline.remainingMillis_afterMillis`,
`Ttl.toInt_ceilSeconds_eq_ceil`, `deadlines_exact`.
-/
import Keyspace.Proofs.Expiry.Readings
import Mathlib.Data.Rat.Floor

namespace Keyspace

namespace Deadline
variable {now later due : Nat} {n : Int64}

/-- A deadline is missing only if it is past the last instant. -/
theorem afterMillis_eq_none_iff : afterMillis now n = none ↔ Clock.last < now + n.toInt.toNat * Clock.milli := by
  rw [← Nat.not_le, ← not_iff_not, not_not, ← ne_eq, Option.ne_none_iff_exists']
  constructor
  · rintro ⟨due, hdue⟩
    obtain ⟨rfl, hlast⟩ := afterMillis_eq_some_iff.mp hdue
    exact hlast
  · intro hlast
    exact ⟨_, afterMillis_eq_some_iff.mpr ⟨rfl, hlast⟩⟩

/-- Seconds are a thousand milliseconds each, or too many for a word. -/
theorem afterSeconds_eq_ite (now : Nat) (n : Int64) : afterSeconds now n =
    if 1000 * max n.toInt 0 ≤ 9223372036854775807 then afterMillis now (Int64.ofInt (1000 * max n.toInt 0))
    else none := by
  have hmax : 1000 * max n.toInt 0 = (n.toInt.toNat * 1000 : Nat) := by omega
  rw [hmax]
  split
  · next h =>
    rw [afterSeconds_of_le (by omega)]
    rfl
  · next h =>
    refine Option.eq_none_iff_forall_ne_some.mpr fun due hdue => h ?_
    have hfits := (afterSeconds_eq_some_iff.mp hdue).1
    omega

/-- The least number of milliseconds that reaches a deadline is the difference, rounded up. -/
theorem isLeast_millis (due now : Nat) :
    IsLeast {k : Nat | due ≤ now + k * Clock.milli} ((due - now + (Clock.milli - 1)) / Clock.milli) := by
  rw [Clock.milli]
  constructor
  · show due ≤ now + _
    omega
  · intro k hk
    have hk : due ≤ now + k * 1000000 := hk
    omega

theorem remainingMillis_eq_zero_iff : remainingMillis due now = 0 ↔ due ≤ now := by
  rw [← Int64.toInt_inj, toInt_remainingMillis, Int64.toInt_zero, Clock.milli]
  omega

theorem remainingMillis_nonneg (due now : Nat) : 0 ≤ remainingMillis due now := by
  rw [Int64.le_iff_toInt_le, toInt_remainingMillis, Int64.toInt_zero]
  exact Int.natCast_nonneg _

/-- The time left does not grow. -/
theorem remainingMillis_antitone (due : Nat) (h : now ≤ later) :
    remainingMillis due later ≤ remainingMillis due now := by
  rw [Int64.le_iff_toInt_le, toInt_remainingMillis, toInt_remainingMillis, Clock.milli]
  omega

/-- All of a time to live is left when it is set. -/
theorem remainingMillis_afterMillis (h : afterMillis now n = some due) :
    (remainingMillis due now).toInt = max n.toInt 0 := by
  obtain ⟨hdue, -⟩ := afterMillis_eq_some_iff.mp h
  have hword := Word.toInt_range n
  rw [toInt_remainingMillis, hdue, Clock.milli]
  omega

end Deadline

namespace Ttl
variable {now due : Nat}

/-- A natural number divided with a remainder that counts as one more. -/
theorem ceil_div (a : Nat) : ⌈(a : ℚ) / Clock.second⌉ = ((a + (Clock.second - 1)) / Clock.second : Nat) := by
  rw [Rat.ceil_natCast_div_natCast, Clock.second]
  omega

/-- In seconds, the time left is the ceiling of the difference. -/
theorem toInt_ceilSeconds_eq_ceil (hle : now ≤ due) (hcap : due ≤ now + 9223372036854775807 * Clock.milli) :
    (ceilSeconds (Deadline.remainingMillis due now)).toInt = ⌈((due : ℚ) - now) / Clock.second⌉ := by
  rw [toInt_ceilSeconds_remaining (by omega), ← ceil_div, Nat.cast_sub hle]

theorem ceilSeconds_of_nonpos {ms : Int64} (h : ms ≤ 0) : ceilSeconds ms = ms := if_pos h

end Ttl

open Clock (Reading)
open Deadline Ttl

/-- **Deadlines and times left are exact**, at all instants that the clock shows and for all amounts. -/
theorem deadlines_exact (now due : Reading) (n : Int64) :
    -- what is calculated in words is the same
    ((now.afterMillis? n).map Reading.instant = afterMillis now.instant n ∧
      (now.afterSeconds? n).map Reading.instant = afterSeconds now.instant n ∧
      due.millisUntil now = remainingMillis due.instant now.instant) ∧
    -- a deadline is the sum, and missing exactly if that is past the last instant
    ((∀ t : Nat, afterMillis now.instant n = some t ↔
        (t : Int) = now.instant + max n.toInt 0 * Clock.milli ∧ t ≤ Clock.last) ∧
      (afterMillis now.instant n = none ↔
        (Clock.last : Int) < now.instant + max n.toInt 0 * Clock.milli)) ∧
    -- seconds are a thousand milliseconds each, as long as those are a word
    afterSeconds now.instant n =
      (if 1000 * max n.toInt 0 ≤ 9223372036854775807
        then afterMillis now.instant (Int64.ofInt (1000 * max n.toInt 0)) else none) ∧
    -- the time left is the least that reaches the deadline, or the greatest word
    (∃ k, IsLeast {k : Nat | due.instant ≤ now.instant + k * Clock.milli} k ∧
      (remainingMillis due.instant now.instant).toInt = (min k 9223372036854775807 : Nat)) ∧
    (remainingMillis due.instant now.instant = 0 ↔ due.instant ≤ now.instant) ∧
    0 ≤ remainingMillis due.instant now.instant ∧
    (∀ later : Reading, now.instant ≤ later.instant →
      remainingMillis due.instant later.instant ≤ remainingMillis due.instant now.instant) ∧
    (∀ t : Nat, afterMillis now.instant n = some t →
      (remainingMillis t now.instant).toInt = max n.toInt 0) ∧
    -- in seconds it is the ceiling of the difference, unless it is at the greatest word
    (now.instant < due.instant → due.instant ≤ now.instant + 9223372036854775807 * Clock.milli →
      (ceilSeconds (remainingMillis due.instant now.instant)).toInt =
        ⌈((due.instant : ℚ) - now.instant) / Clock.second⌉) ∧
    ceilSeconds noDeadline = -1 ∧ ceilSeconds noKey = -2 := by
  have hmax : (n.toInt.toNat : Int) = max n.toInt 0 := Int.toNat_eq_max n.toInt
  refine ⟨⟨now.instant_afterMillis? n, now.instant_afterSeconds? n, due.millisUntil_eq now⟩, ⟨fun t => ?_, ?_⟩,
    afterSeconds_eq_ite _ n, ⟨_, isLeast_millis _ _, toInt_remainingMillis _ _⟩, remainingMillis_eq_zero_iff,
    remainingMillis_nonneg _ _, fun later => remainingMillis_antitone _, fun t => remainingMillis_afterMillis,
    fun hlt => toInt_ceilSeconds_eq_ceil hlt.le, ceilSeconds_of_nonpos (by decide),
    ceilSeconds_of_nonpos (by decide)⟩
  · rw [afterMillis_eq_some_iff, ← hmax]
    norm_cast
  · rw [afterMillis_eq_none_iff, ← hmax]
    norm_cast

-- A nanosecond is a millisecond that is left, and a second; a deadline that was missed leaves none.
example : remainingMillis 1000001 1000000 = 1 ∧ ceilSeconds (remainingMillis 1000001 1000000) = 1 ∧
    remainingMillis 1000000 1000001 = 0 := by decide
-- The last second whose milliseconds fit in a word, and the one after it.
example : (afterSeconds 0 9223372036854775).isSome = true ∧ afterSeconds 0 9223372036854776 = none := by decide

end Keyspace
