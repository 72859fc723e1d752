/-
# The clock in words

Instants and the times between them are counted in nanoseconds, without bound. A clock has words for them: a
`Reading` has its seconds in a signed 64-bit word and the nanoseconds of the second that has begun in a 32-bit
word, a `Span` has its seconds in an unsigned word. A sum carries a second, a difference borrows one, and
milliseconds are counted off a number of nanoseconds in 128 bits.

Readings are exactly the instants that the clock can show (`ofInstant?_eq_some_iff`), and whatever is calculated
in words has the same result as without bound: no step on the way wraps, and a sum is refused only if it is
past the last instant of the clock.

Key definitions: `Clock.Reading`, `Clock.Span`, `Reading.add?`, `Reading.since`, `Reading.afterMillis?`,
`Reading.afterSeconds?`, `Reading.millisUntil`.
Key theorems: `Reading.add?_eq_some_iff`, `Reading.length_since`, `Reading.instant_afterMillis?`,
`Reading.instant_afterSeconds?`, `Reading.millisUntil_eq`.
-/
import Keyspace.Proofs.Expiry.Clock
import Keyspace.Word

namespace Keyspace
namespace Clock

/-- What the clock shows: whole seconds, and nanoseconds of the second that has begun. -/
structure Reading where
  seconds : Int64
  nanos : UInt32
  seconds_nonneg : 0 ≤ seconds
  nanos_lt : nanos < 1000000000
  deriving DecidableEq

/-- A span of time: whole seconds, and nanoseconds below one. -/
structure Span where
  seconds : UInt64
  nanos : UInt32
  nanos_lt : nanos < 1000000000
  deriving DecidableEq

theorem nanos_lt_iff {n : UInt32} : n < 1000000000 ↔ n.toNat < 1000000000 := UInt32.lt_iff_toNat_lt

theorem last_eq : (last : Nat) = 9223372036854775807 * second + 999999999 := rfl

namespace Span

/-- The nanoseconds of a span. -/
def length (d : Span) : Nat := d.seconds.toNat * second + d.nanos.toNat

/-- No time at all. -/
def zero : Span := ⟨0, 0, by decide⟩

theorem length_zero : zero.length = 0 := by simp [zero, length]

theorem toNat_millis (ms : UInt64) :
    ((ms % 1000).toUInt32 * 1000000).toNat = ms.toNat % 1000 * milli := by
  have hthousand : (1000 : UInt64).toNat = 1000 := rfl
  have hmillion : (1000000 : UInt32).toNat = 1000000 := rfl
  rw [UInt32.toNat_mul, UInt64.toNat_toUInt32, UInt64.toNat_mod, hthousand, hmillion, milli]
  omega

theorem millis_lt (ms : UInt64) : (ms % 1000).toUInt32 * 1000000 < 1000000000 := by
  rw [nanos_lt_iff, toNat_millis, milli]
  omega

/-- So many milliseconds. -/
def ofMillis (ms : UInt64) : Span where
  seconds := ms / 1000
  nanos := (ms % 1000).toUInt32 * 1000000
  nanos_lt := millis_lt ms

theorem length_ofMillis (ms : UInt64) : (ofMillis ms).length = ms.toNat * milli := by
  have hthousand : (1000 : UInt64).toNat = 1000 := rfl
  rw [length, ofMillis, toNat_millis, UInt64.toNat_div, hthousand, second, milli]
  omega

/-- The nanoseconds of a span in 128 bits. -/
def total (d : Span) : BitVec 128 :=
  d.seconds.toBitVec.setWidth 128 * 1000000000 + d.nanos.toBitVec.setWidth 128

theorem toNat_total (d : Span) : d.total.toNat = d.length := by
  have hseconds := d.seconds.toNat_lt
  have hnanos := d.nanos.toNat_lt
  have hbillion : (1000000000 : BitVec 128).toNat = 1000000000 := rfl
  rw [total, length, second, BitVec.toNat_add, BitVec.toNat_mul, BitVec.toNat_setWidth, BitVec.toNat_setWidth,
    hbillion, UInt64.toNat_toBitVec, UInt32.toNat_toBitVec]
  omega

end Span

namespace Reading

variable {r t now due : Reading}

/-! ### Readings are instants -/

/-- The instant of a reading. -/
def instant (r : Reading) : Nat := r.seconds.toInt.toNat * second + r.nanos.toNat

theorem toInt_seconds (r : Reading) : (r.seconds.toInt.toNat : Int) = r.seconds.toInt := by
  have h := r.seconds_nonneg
  rw [Int64.le_iff_toInt_le, Int64.toInt_zero] at h
  exact Int.toNat_of_nonneg h

theorem nanos_lt_second (r : Reading) : r.nanos.toNat < second := nanos_lt_iff.mp r.nanos_lt

theorem instant_le_last (r : Reading) : r.instant ≤ last := by
  have hseconds := r.toInt_seconds
  have hword := Word.toInt_range r.seconds
  have hnanos := r.nanos_lt_second
  rw [instant, last_eq]
  rw [second] at hnanos ⊢
  omega

theorem eq_of_instant (h : r.instant = t.instant) : r = t := by
  have hr := r.nanos_lt_second
  have ht := t.nanos_lt_second
  rw [instant, instant] at h
  rw [second] at h hr ht
  have hseconds : r.seconds = t.seconds := by
    rw [← Int64.toInt_inj, ← r.toInt_seconds, ← t.toInt_seconds]
    omega
  have hnanos : r.nanos = t.nanos := by
    rw [← UInt32.toNat_inj]
    omega
  cases r
  cases t
  cases hseconds
  cases hnanos
  rfl

theorem toInt_ofNat_seconds {t : Nat} (h : t ≤ last) : (Int64.ofNat (t / second)).toInt = (t / second : Nat) := by
  apply Int64.toInt_ofNat_of_lt
  rw [last_eq] at h
  rw [second] at h ⊢
  omega

theorem toNat_ofNat_nanos (t : Nat) : (UInt32.ofNat (t % second)).toNat = t % second := by
  apply UInt32.toNat_ofNat_of_lt'
  show _ < 4294967296
  rw [second]
  omega

/-- What the clock shows at an instant, if it can show it. -/
def ofInstant? (t : Instant) : Option Reading :=
  if h : t ≤ last then
    some
      { seconds := Int64.ofNat (t / second)
        nanos := UInt32.ofNat (t % second)
        seconds_nonneg := by
          rw [Int64.le_iff_toInt_le, toInt_ofNat_seconds h]
          exact Int.natCast_nonneg _
        nanos_lt := by
          rw [nanos_lt_iff, toNat_ofNat_nanos]
          exact Nat.mod_lt t (by decide) }
  else none

/-- What gives the reading of one number of nanoseconds, or nothing if that is past the last instant. -/
theorem eq_some_iff {o : Option Reading} {n : Nat} (hsome : ∀ w, o = some w → w.instant = n)
    (hnone : o = none → ¬ n ≤ last) : o = some r ↔ r.instant = n := by
  constructor
  · exact hsome r
  · intro h
    cases ho : o with
    | some w => rw [eq_of_instant ((hsome w ho).trans h.symm)]
    | none => exact absurd (h ▸ r.instant_le_last) (hnone ho)

theorem ofInstant?_eq_some_iff {n : Nat} : ofInstant? n = some r ↔ r.instant = n := by
  refine eq_some_iff (fun w hw => ?_) fun hnone => ?_
  · unfold ofInstant? at hw
    split at hw
    · next h =>
      cases hw
      simp only [instant]
      rw [toInt_ofNat_seconds h, toNat_ofNat_nanos, Int.toNat_natCast]
      exact Nat.div_add_mod' n second
    · cases hw
  · unfold ofInstant? at hnone
    split at hnone
    · cases hnone
    · next h => exact h

/-- The clock shows every instant up to its last. -/
theorem exists_reading {n : Nat} (h : n ≤ last) : ∃ r : Reading, r.instant = n :=
  ⟨_, ofInstant?_eq_some_iff.mp (dif_pos h)⟩

/-! ### Sums -/

/-- Whole seconds later, if the clock counts that far. -/
def addSeconds? (r : Reading) (n : UInt64) : Option Reading :=
  match h : Word.ofInt? (r.seconds.toInt + n.toNat) with
  | some seconds =>
    some
      { r with
        seconds
        seconds_nonneg := by
          rw [Int64.le_iff_toInt_le, Word.ofInt?_eq_some_iff.mp h, ← r.toInt_seconds]
          exact Int.natCast_nonneg (_ + _) }
  | none => none

theorem toNat_carry (r : Reading) {n : UInt32} (hn : n < 1000000000) :
    (r.nanos + n).toNat = r.nanos.toNat + n.toNat := by
  have hr := nanos_lt_iff.mp r.nanos_lt
  have hn' := nanos_lt_iff.mp hn
  rw [UInt32.toNat_add]
  omega

/-- Less than a second later. Nanoseconds that fill a second are carried into the seconds. -/
def addNanos? (r : Reading) (n : UInt32) (hn : n < 1000000000) : Option Reading :=
  if h : r.nanos + n < 1000000000 then some { r with nanos := r.nanos + n, nanos_lt := h }
  else
    { r with
      nanos := r.nanos + n - 1000000000
      nanos_lt := by
        have hr := nanos_lt_iff.mp r.nanos_lt
        have hn' := nanos_lt_iff.mp hn
        have hbillion : (1000000000 : UInt32).toNat = 1000000000 := rfl
        rw [nanos_lt_iff] at h ⊢
        rw [UInt32.toNat_sub_of_le _ _ (UInt32.le_iff_toNat_le.mpr (Nat.le_of_not_lt h)), toNat_carry r hn, hbillion]
        omega : Reading }.addSeconds? 1

/-- A span later, if the clock can show that. -/
def add? (r : Reading) (d : Span) : Option Reading := do
  let whole ← r.addSeconds? d.seconds
  whole.addNanos? d.nanos d.nanos_lt

theorem addSeconds?_eq_some_iff {n : UInt64} :
    r.addSeconds? n = some t ↔ t.instant = r.instant + n.toNat * second := by
  have hr := r.toInt_seconds
  refine eq_some_iff (fun w hw => ?_) fun hnone => ?_
  · unfold addSeconds? at hw
    split at hw
    · next seconds hseconds =>
      cases hw
      have hs := Word.ofInt?_eq_some_iff.mp hseconds
      simp only [instant, second]
      omega
    · cases hw
  · unfold addSeconds? at hnone
    split at hnone
    · cases hnone
    · next hseconds =>
      have hs := Word.ofInt?_eq_none_iff.mp hseconds
      rw [last_eq, instant, second]
      omega

theorem addNanos?_eq_some_iff {n : UInt32} (hn : n < 1000000000) :
    r.addNanos? n hn = some t ↔ t.instant = r.instant + n.toNat := by
  unfold addNanos?
  split
  · have hsum : ({ r with nanos := r.nanos + n, nanos_lt := ‹_› } : Reading).instant = r.instant + n.toNat := by
      simp only [instant, toNat_carry r hn, Nat.add_assoc]
    rw [Option.some_inj, ← hsum]
    exact ⟨fun h => h ▸ rfl, fun h => eq_of_instant h.symm⟩
  · next h =>
    have hbillion : (1000000000 : UInt32).toNat = 1000000000 := rfl
    have hone : (1 : UInt64).toNat = 1 := rfl
    rw [nanos_lt_iff] at h
    rw [addSeconds?_eq_some_iff]
    simp only [instant]
    rw [UInt32.toNat_sub_of_le _ _ (UInt32.le_iff_toNat_le.mpr (Nat.le_of_not_lt h)), hbillion, hone, second]
    rw [toNat_carry r hn] at h ⊢
    omega

/-- **A sum of words is the sum**, with its carry, and is missing only if the clock cannot show it. -/
theorem add?_eq_some_iff {d : Span} : r.add? d = some t ↔ t.instant = r.instant + d.length := by
  rw [add?, Span.length]
  constructor
  · intro h
    obtain ⟨whole, hwhole, h⟩ := Option.bind_eq_some_iff.mp h
    have hseconds := addSeconds?_eq_some_iff.mp hwhole
    have hnanos := (addNanos?_eq_some_iff _).mp h
    omega
  · intro h
    obtain ⟨whole, hwhole⟩ : ∃ whole : Reading, whole.instant = r.instant + d.seconds.toNat * second := by
      have ht := t.instant_le_last
      exact exists_reading (by omega)
    rw [addSeconds?_eq_some_iff.mpr hwhole]
    exact (addNanos?_eq_some_iff d.nanos_lt).mpr (by omega)

/-! ### Differences -/

/-- The reading comes before another one. -/
def before (r t : Reading) : Bool := r.seconds < t.seconds || (r.seconds == t.seconds && r.nanos < t.nanos)

/-- The span from a reading on, or none if the other one comes before it. A second is borrowed if there
are not nanoseconds enough. -/
def since (due now : Reading) : Span :=
  if due.before now then .zero
  else if h : now.nanos ≤ due.nanos then
    { seconds := due.seconds.toUInt64 - now.seconds.toUInt64
      nanos := due.nanos - now.nanos
      nanos_lt := by
        have hdue := nanos_lt_iff.mp due.nanos_lt
        rw [nanos_lt_iff, UInt32.toNat_sub_of_le _ _ h]
        omega }
  else
    { seconds := due.seconds.toUInt64 - now.seconds.toUInt64 - 1
      nanos := due.nanos + 1000000000 - now.nanos
      nanos_lt := by
        have hbillion : (1000000000 : UInt32).toNat = 1000000000 := rfl
        have hdue := nanos_lt_iff.mp due.nanos_lt
        have hnow := nanos_lt_iff.mp now.nanos_lt
        rw [UInt32.le_iff_toNat_le] at h
        rw [nanos_lt_iff, UInt32.toNat_sub, UInt32.toNat_add, hbillion]
        omega }

theorem toNat_toUInt64 (r : Reading) : r.seconds.toUInt64.toNat = r.seconds.toInt.toNat := by
  rw [Int64.toNat_toUInt64_of_le r.seconds_nonneg, Int64.toNat_toInt]

theorem before_iff : r.before t = true ↔ r.instant < t.instant := by
  have hr := r.toInt_seconds
  have ht := t.toInt_seconds
  have hrn := nanos_lt_iff.mp r.nanos_lt
  have htn := nanos_lt_iff.mp t.nanos_lt
  simp only [before, instant, second, Bool.or_eq_true, Bool.and_eq_true, decide_eq_true_eq, beq_iff_eq,
    Int64.lt_iff_toInt_lt, UInt32.lt_iff_toNat_lt, ← Int64.toInt_inj]
  omega

/-- **A difference of words is the difference**, with its borrow, or nothing. -/
theorem length_since (due now : Reading) : (due.since now).length = due.instant - now.instant := by
  have hdue := due.toInt_seconds
  have hnow := now.toInt_seconds
  have hduen := nanos_lt_iff.mp due.nanos_lt
  have hnown := nanos_lt_iff.mp now.nanos_lt
  unfold since
  split
  · next h =>
    rw [before_iff] at h
    rw [Span.length_zero]
    omega
  · next hbefore =>
    rw [before_iff] at hbefore
    have hnow' := now.seconds.toUInt64.toNat_lt
    have hdue' := due.seconds.toUInt64.toNat_lt
    have hbillion : (1000000000 : UInt32).toNat = 1000000000 := rfl
    have hone : (1 : UInt64).toNat = 1 := rfl
    rw [toNat_toUInt64] at hnow' hdue'
    simp only [instant, second] at hbefore
    split
    · next h =>
      simp only [Span.length, UInt64.toNat_sub, UInt32.toNat_sub_of_le _ _ h, toNat_toUInt64, instant, second]
      rw [UInt32.le_iff_toNat_le] at h
      omega
    · next h =>
      simp only [Span.length, UInt64.toNat_sub, UInt32.toNat_sub, UInt32.toNat_add, toNat_toUInt64, instant,
        second, hbillion, hone]
      rw [UInt32.le_iff_toNat_le] at h
      omega

/-! ### Deadlines -/

/-- The deadline `n` milliseconds from now. -/
def afterMillis? (now : Reading) (n : Int64) : Option Reading :=
  now.add? (.ofMillis (if 0 ≤ n then n.toUInt64 else 0))

/-- The deadline `n` seconds from now. The milliseconds have to fit in a word. -/
def afterSeconds? (now : Reading) (n : Int64) : Option Reading := do
  let ms ← Word.mul? (if 0 ≤ n then n else 0) 1000
  now.afterMillis? ms

theorem toInt_clamp (n : Int64) : (if 0 ≤ n then n else 0).toInt = n.toInt.toNat := by
  split
  · next h =>
    rw [Int64.le_iff_toInt_le, Int64.toInt_zero] at h
    omega
  · next h =>
    rw [Int64.le_iff_toInt_le, Int64.toInt_zero] at h
    rw [Int64.toInt_zero]
    omega

theorem toNat_clamp (n : Int64) : (if 0 ≤ n then n.toUInt64 else 0).toNat = n.toInt.toNat := by
  split
  · next h => rw [Int64.toNat_toUInt64_of_le h, Int64.toNat_toInt]
  · next h =>
    rw [Int64.le_iff_toInt_le, Int64.toInt_zero] at h
    have hzero : (0 : UInt64).toNat = 0 := rfl
    omega

/-- **Deadlines in words are the deadlines**: the same instant, and none if it is past the last. -/
theorem instant_afterMillis? (now : Reading) (n : Int64) :
    (now.afterMillis? n).map instant = Deadline.afterMillis now.instant n := by
  apply Option.ext
  intro due
  rw [Deadline.afterMillis_eq_some_iff, Option.map_eq_some_iff]
  constructor
  · rintro ⟨r, hr, rfl⟩
    have hsum := add?_eq_some_iff.mp hr
    rw [Span.length_ofMillis, toNat_clamp] at hsum
    exact ⟨hsum, r.instant_le_last⟩
  · rintro ⟨hdue, hlast⟩
    obtain ⟨r, rfl⟩ := exists_reading hlast
    refine ⟨r, add?_eq_some_iff.mpr ?_, rfl⟩
    rw [Span.length_ofMillis, toNat_clamp]
    exact hdue

theorem instant_afterSeconds? (now : Reading) (n : Int64) :
    (now.afterSeconds? n).map instant = Deadline.afterSeconds now.instant n := by
  have hthousand : (1000 : Int64).toInt = 1000 := rfl
  rw [afterSeconds?, Word.mul?, toInt_clamp, hthousand]
  cases hms : Word.ofInt? (n.toInt.toNat * 1000) with
  | some ms =>
    have htoInt := Word.ofInt?_eq_some_iff.mp hms
    have hfits : n.toInt.toNat * 1000 ≤ 9223372036854775807 := by
      have hword := Word.toInt_range ms
      omega
    have hmsEq : ms = Int64.ofNat (n.toInt.toNat * 1000) := by
      rw [← Int64.toInt_inj, htoInt, Int64.toInt_ofNat_of_lt (by omega)]
      rfl
    rw [Deadline.afterSeconds_of_le hfits, ← hmsEq, ← instant_afterMillis?]
    rfl
  | none =>
    have hrange := Word.ofInt?_eq_none_iff.mp hms
    have hnone : Deadline.afterSeconds now.instant n = none := by
      refine Option.eq_none_iff_forall_ne_some.mpr fun due hdue => ?_
      have hfits := (Deadline.afterSeconds_eq_some_iff.mp hdue).1
      omega
    rw [hnone]
    rfl

/-! ### Time left -/

/-- Nanoseconds as milliseconds, rounded up. -/
def ceilMillis (nanos : BitVec 128) : BitVec 128 :=
  if nanos % 1000000 = 0 then nanos / 1000000 else nanos / 1000000 + 1

/-- The number as a signed word, or the greatest word if it is too large for one. -/
def clampWord (n : BitVec 128) : Int64 :=
  if n.toNat ≤ 9223372036854775807 then Int64.ofNat n.toNat else Int64.maxValue

/-- The milliseconds from a reading to a deadline, rounded up and at most the largest word. -/
def millisUntil (due now : Reading) : Int64 := clampWord (ceilMillis (due.since now).total)

theorem toNat_ceilMillis (nanos : BitVec 128) :
    (ceilMillis nanos).toNat = (nanos.toNat + (milli - 1)) / milli := by
  have hmillion : (1000000 : BitVec 128).toNat = 1000000 := rfl
  have hone : (1 : BitVec 128).toNat = 1 := rfl
  have hzero : nanos % 1000000 = 0 ↔ nanos.toNat % 1000000 = 0 := by
    rw [← BitVec.toNat_inj, BitVec.toNat_umod, hmillion]
    rfl
  have hnanos := nanos.isLt
  unfold ceilMillis
  split
  · next h =>
    rw [hzero] at h
    rw [BitVec.toNat_udiv, hmillion, milli]
    omega
  · next h =>
    rw [hzero] at h
    rw [BitVec.toNat_add, BitVec.toNat_udiv, hmillion, hone, milli]
    omega

/-- **The time left in words is the time left.** -/
theorem millisUntil_eq (due now : Reading) :
    due.millisUntil now = Deadline.remainingMillis due.instant now.instant := by
  rw [← Int64.toInt_inj, Deadline.toInt_remainingMillis, ← length_since, ← Span.toNat_total, ← toNat_ceilMillis,
    millisUntil, clampWord]
  split
  · next h => rw [Nat.min_eq_left h, Int64.toInt_ofNat_of_lt (by omega)]
  · next h =>
    rw [Nat.min_eq_right (by omega), Int64.toInt_maxValue]
    rfl

end Reading
end Clock
end Keyspace
