/-
# The clock and deadlines

An `Instant` is a reading of a clock that never runs backwards by itself: nanoseconds since its zero.
The clock counts whole seconds in a signed 64-bit word and nanoseconds below one second, so
`Clock.last` is the last instant it can show. A deadline is the instant at which a key vanishes: the
key is there before it and gone from it on.

Key definitions:
* `Deadline.afterMillis`, `Deadline.afterSeconds`: the deadline some time from now, if the clock can
  show it. Negative times count as zero.
* `Deadline.remainingMillis`: the time left in milliseconds, rounded up.
* `Ttl.ceilSeconds`: milliseconds as seconds, rounded up.
-/

namespace Keyspace

/-- Nanoseconds since the clock's zero. -/
abbrev Instant := Nat

namespace Clock

/-- One millisecond in nanoseconds. -/
def milli : Nat := 1000000

/-- One second in nanoseconds. -/
def second : Nat := 1000000000

/-- The last instant that the clock can show, before 2^63 seconds. -/
def last : Instant := 0x8000000000000000 * second - 1

end Clock

namespace Deadline

/-- The deadline `n` milliseconds from now. -/
def afterMillis (now : Instant) (n : Int64) : Option Instant :=
  let due := now + n.toInt.toNat * Clock.milli
  if due ≤ Clock.last then some due else none

/-- The deadline `n` seconds from now. The milliseconds have to fit in a signed 64-bit word. -/
def afterSeconds (now : Instant) (n : Int64) : Option Instant :=
  let ms := n.toInt.toNat * 1000
  if ms ≤ Int64.maxValue.toInt then afterMillis now (Int64.ofNat ms) else none

/-- Whether a deadline has been reached. -/
def reached (due now : Instant) : Bool := due ≤ now

/-- The milliseconds left until a deadline, rounded up and at most the largest 64-bit integer. -/
def remainingMillis (due now : Instant) : Int64 :=
  Int64.ofNat (min ((due - now + (Clock.milli - 1)) / Clock.milli) 0x7fffffffffffffff)

end Deadline

namespace Ttl

/-- Answer for a key that does not exist. -/
def noKey : Int64 := -2

/-- Answer for a key without a deadline. -/
def noDeadline : Int64 := -1

/-- Milliseconds as seconds, rounded up. The answers that are no time stay as they are. -/
def ceilSeconds (ms : Int64) : Int64 :=
  if ms ≤ 0 then ms else ms / 1000 + if ms % 1000 = 0 then 0 else 1

end Ttl
end Keyspace
