/-
# The sweeper

Lazy eviction leaves expired keys that nobody names. The sweeper evicts them in the background: it
sweeps the store, sleeps, and sweeps again. A store that looks through all deadlines is swept once an
interval; one that keeps an agenda is swept at its earliest deadline, but within bounds.

Time moves in ticks of one millisecond. A sweeper whose time has come sweeps at that tick, and a
sweep takes no time. With an interval of zero its time has come when it starts. A sweeper that is told
to stop wakes up for that, and ends instead of sweeping.

Key definitions:
* `Sweeper.delay`: how long to sleep after a sweep;
* `Timeline.settle`: the sweepers do what they have to do at this instant;
* `Timeline.step`: a store and its sweepers, through ticks, starts, stops and operations.
-/
import Keyspace.Store

namespace Keyspace

/-- How often to sweep, in milliseconds. -/
structure Pace where
  /-- The time between sweeps, and the longest sleep. -/
  interval : Nat
  /-- The shortest sleep when it depends on the earliest deadline. -/
  least : Nat
  deriving DecidableEq, Repr

/-- The pace if none is chosen. -/
def Pace.standard : Pace := ⟨200, 1⟩

/-- A sweeper that sleeps. -/
structure Sweeper where
  pace : Pace
  /-- When it has slept enough. -/
  wake : Instant
  deriving DecidableEq, Repr

namespace Sweeper

/-- A sweeper begins with one interval of sleep, which may be none. -/
def start (pace : Pace) (now : Instant) : Sweeper := ⟨pace, now + pace.interval * Clock.milli⟩

/-- How long to sleep after a sweep, in nanoseconds. -/
def delay (pace : Pace) (s : Store) (now : Instant) : Nat × Store :=
  let interval := pace.interval * Clock.milli
  let least := pace.least * Clock.milli
  match s.mode with
  | .linear => (interval, s)
  | .heap =>
    match s.nextDue with
    | (some due, s) => (max least (min (due - now) (max interval least)), s)
    | (none, s) => (interval, s)

/-- Whether the sweeper has slept enough. -/
def isDue (w : Sweeper) (now : Instant) : Bool := w.wake ≤ now

/-- What the sweeper does at an instant: it sweeps if it has slept enough. -/
def tick (w : Sweeper) (s : Store) (now : Instant) : Sweeper × Store :=
  if w.isDue now then
    let (_, s) := s.sweepAll now
    let (sleep, s) := delay w.pace s now
    ({ w with wake := now + sleep }, s)
  else (w, s)

end Sweeper

/-- A sweeper in the background. -/
structure Runner where
  /-- Sweepers are numbered as they start, from one on. -/
  number : Nat
  sweeper : Sweeper
  /-- Whether it has been told to stop. -/
  stopped : Bool
  deriving DecidableEq, Repr

/-- A store in time, with its sweepers. The one that started last can be told to stop. -/
structure Timeline where
  store : Store
  now : Instant
  /-- How many sweepers have started. -/
  started : Nat
  /-- The sweepers that have not ended, in the order in which they started. -/
  runners : List Runner
  /-- The sweeps so far, each with the number of the sweeper, oldest first. -/
  sweeps : List (Nat × Instant)

namespace Timeline

/-- What happens to a store in time. -/
inductive Event where
  /-- One millisecond passes. -/
  | tick
  /-- A sweeper starts, in place of the last one. -/
  | start (pace : Pace)
  /-- The last sweeper is told to stop, as it is when nobody holds on to it any longer. -/
  | stop
  /-- Someone performs an operation. -/
  | operation (op : Shard.Operation)
  deriving DecidableEq, Repr

/-- A store that has had no sweeper yet. -/
def ofStore (store : Store) (now : Instant) : Timeline where
  store
  now
  started := 0
  runners := []
  sweeps := []

/-- A sweeper does what it has to do at this instant: it ends if it has been told to, sweeps if it has
slept enough, and sleeps on if not. -/
def wakeUp (t : Timeline) (r : Runner) : Timeline :=
  if r.stopped then t
  else if r.sweeper.isDue t.now then
    let (sweeper, store) := r.sweeper.tick t.store t.now
    { t with
      store
      runners := t.runners ++ [{ r with sweeper }]
      sweeps := t.sweeps ++ [(r.number, t.now)] }
  else { t with runners := t.runners ++ [r] }

/-- All sweepers do what they have to do at this instant. -/
def settle (t : Timeline) : Timeline := t.runners.foldl wakeUp { t with runners := [] }

/-- Tells the last sweeper to stop, if there is one. -/
def signal (t : Timeline) : Timeline :=
  { t with runners := t.runners.map fun r => if r.number = t.started then { r with stopped := true } else r }

/-- Starts a sweeper. -/
def spawn (t : Timeline) (pace : Pace) : Timeline :=
  { t with
    started := t.started + 1
    runners := t.runners ++ [⟨t.started + 1, Sweeper.start pace t.now, false⟩] }

/-- One millisecond later. -/
def tick (t : Timeline) : Timeline := settle { t with now := t.now + Clock.milli }

/-- What an event makes of a store in time, and what it answers. -/
def step (t : Timeline) : Event → Shard.Result × Timeline
  | .tick => (.done, t.tick)
  | .start pace => (.done, (t.signal.spawn pace).settle)
  | .stop => (.done, t.signal.settle)
  | .operation op =>
    let (r, store) := t.store.run op
    (r, { t with store })

/-- Several milliseconds later. Lists, for each tick that changed the number of keys, the instant and
the number after it. -/
def run (t : Timeline) : Nat → List (Instant × Nat) × Timeline
  | 0 => ([], t)
  | n + 1 =>
    let u := t.tick
    let (changes, v) := u.run n
    (if u.store.size = t.store.size then changes else (u.now, u.store.size) :: changes, v)

end Timeline
end Keyspace
