/-
# The pace of the sweeper

When a sweeper goes to sleep it is settled when it will sweep next: at the first tick at which it has slept
enough (`Sleeps.sweepsNext`). What happens to the store meanwhile does not wake it earlier or keep it asleep,
and no sleep is longer than the longest that the pace allows, so a key whose deadline is reached is not there
for longer than that (`Sleeps.takes`).

Key definitions: `Timeline.Sleeps`, `Timeline.SweepsNext`.
Key theorems: `Sleeps.sweepsNext`, `Sleeps.life`, `Sleeps.takes`, `sweeper_keeps_pace`.
-/
import Mathlib.Data.Nat.Find
import Keyspace.Proofs.Sweeper.Timeline

namespace Keyspace

/-! ### How long a sweeper sleeps -/

namespace Sweeper

variable {s : Store} {now due : Instant} {pace : Pace}

theorem delay_linear (h : s.mode = .linear) : (delay pace s now).1 = pace.interval * Clock.milli := by
  simp [delay, h]

theorem delay_heap (h : s.mode = .heap) : (delay pace s now).1 =
    match s.nextDue.1 with
    | some due => max (pace.least * Clock.milli)
        (min (due - now) (max (pace.interval * Clock.milli) (pace.least * Clock.milli)))
    | none => pace.interval * Clock.milli := by
  simp only [delay, h]
  split
  · next hdue => rw [hdue]
  · next hdue => rw [hdue]

/-- Every sleep keeps to the bounds of the pace. -/
theorem delay_bounds (pace : Pace) (s : Store) (now : Instant) :
    min pace.interval pace.least * Clock.milli ≤ (delay pace s now).1 ∧
    (delay pace s now).1 ≤ max pace.interval pace.least * Clock.milli := by
  rw [← Nat.mul_min_mul_right, ← Nat.mul_max_mul_right]
  cases hmode : s.mode with
  | linear =>
    rw [delay_linear hmode]
    exact ⟨Nat.min_le_left _ _, Nat.le_max_left _ _⟩
  | heap =>
    rw [delay_heap hmode]
    generalize pace.interval * Clock.milli = interval
    generalize pace.least * Clock.milli = least
    cases s.nextDue.1 with
    | none => exact ⟨Nat.min_le_left _ _, Nat.le_max_left _ _⟩
    | some due => dsimp only; lia

/-- No sleep lasts beyond the earliest deadline, unless that would make it too short. -/
theorem delay_le_due (hmode : s.mode = .heap) (hdue : s.nextDue.1 = some due) :
    now + (delay pace s now).1 ≤ max due (now + pace.least * Clock.milli) := by
  rw [delay_heap hmode, hdue]
  generalize pace.interval * Clock.milli = interval
  generalize pace.least * Clock.milli = least
  dsimp only
  lia

theorem mode_delay (pace : Pace) (s : Store) (now : Instant) : (delay pace s now).2.mode = s.mode := by
  unfold delay
  cases hmode : s.mode with
  | linear => exact hmode
  | heap =>
    have hnext : s.nextDue.2.mode = .heap := hmode
    dsimp only
    split
    · next hdue => rwa [hdue] at hnext
    · next hdue => rwa [hdue] at hnext

theorem delay_le_earliest (h : s.Placed) (hmode : s.mode = .heap)
    (hdue : (delay pace s now).2.Earliest (some due)) :
    now + (delay pace s now).1 ≤ max due (now + pace.least * Clock.milli) := by
  have hsame := h.delay pace now
  have hearliest := h.earliest_nextDue
  obtain ⟨i, key, hkey⟩ := hdue.1
  obtain ⟨-, hdeadline⟩ := hsame.left.due_iff.mp hkey
  rw [hsame.same] at hdeadline
  have hheld : s.Due (s.index key) key due := h.due_iff.mpr ⟨rfl, hdeadline⟩
  cases hnext : s.nextDue.1 with
  | none =>
    rw [hnext] at hearliest
    exact absurd hheld (hearliest _ _ _)
  | some first =>
    rw [hnext] at hearliest
    have hfirst : first ≤ due := hearliest.2 _ _ _ hheld
    have hbound : now + (delay pace s now).1 ≤ max first (now + pace.least * Clock.milli) :=
      delay_le_due hmode hnext
    lia

end Sweeper

namespace Timeline

variable {t : Timeline} {n : Nat} {pace : Pace} {wake : Instant} {e : Event}

/-! ### A sweeper asleep -/

/-- The last sweeper sleeps, and will not sleep for longer than its pace allows. -/
structure Sleeps (t : Timeline) (pace : Pace) (wake : Instant) : Prop where
  sound : t.Sound
  runs : t.runners = [⟨t.started, ⟨pace, wake⟩, false⟩]
  later : t.now < wake
  soon : wake ≤ t.now + max pace.interval pace.least * Clock.milli

theorem Sleeps.operation (h : t.Sleeps pace wake) (op : Shard.Operation) :
    (t.step (.operation op)).2.Sleeps pace wake :=
  ⟨h.sound.step _, h.runs, h.later, h.soon⟩

/-- Before its time has come a sweeper sleeps on. -/
theorem Sleeps.tick_early (h : t.Sleeps pace wake) (hwake : t.now + Clock.milli < wake) :
    (t.step .tick).2 = { t with now := t.now + Clock.milli } := by
  show settle { t with now := t.now + Clock.milli } = _
  rw [settle_of_one (t := { t with now := t.now + Clock.milli }) h.runs, wakeUp_asleep rfl hwake]
  simp [h.runs]

theorem Sleeps.early (h : t.Sleeps pace wake) (hwake : t.now + Clock.milli < wake) :
    (t.step .tick).2.Sleeps pace wake := by
  have hsound := h.sound.step .tick
  have hsoon := h.soon
  rw [h.tick_early hwake] at hsound ⊢
  exact ⟨hsound, h.runs, hwake, by dsimp only; lia⟩

theorem Sleeps.sweepsBy_early (h : t.Sleeps pace wake) (hwake : t.now + Clock.milli < wake) :
    (t.step .tick).2.sweepsBy n = t.sweepsBy n := by
  rw [h.tick_early hwake]
  rfl

/-- How long the sweeper sleeps after a sweep at the next tick, and the store then. -/
def swept (t : Timeline) (pace : Pace) : Nat × Store :=
  Sweeper.delay pace (t.store.sweepAll (t.now + Clock.milli)).2 (t.now + Clock.milli)

/-- When its time has come a sweeper sweeps, and goes to sleep again. -/
theorem Sleeps.tick_due (h : t.Sleeps pace wake) (hwake : wake ≤ t.now + Clock.milli) :
    (t.step .tick).2 = { t with
      now := t.now + Clock.milli
      store := (t.swept pace).2
      runners := [⟨t.started, ⟨pace, t.now + Clock.milli + (t.swept pace).1⟩, false⟩]
      sweeps := t.sweeps ++ [(t.started, t.now + Clock.milli)] } := by
  show settle { t with now := t.now + Clock.milli } = _
  rw [settle_of_one (t := { t with now := t.now + Clock.milli }) h.runs, wakeUp_due rfl hwake]
  simp only [List.nil_append, Sweeper.tick_due (w := ⟨pace, wake⟩) hwake, swept]

theorem Sleeps.sweepsBy_due (h : t.Sleeps pace wake) (hwake : wake ≤ t.now + Clock.milli) :
    (t.step .tick).2.sweepsBy t.started = t.sweepsBy t.started ++ [t.now + Clock.milli] := by
  rw [sweepsBy_append (congrArg Timeline.sweeps (h.tick_due hwake)), if_pos rfl]

theorem Sleeps.due (h : t.Sleeps pace wake) (hwake : wake ≤ t.now + Clock.milli)
    (hinterval : 0 < pace.interval) (hleast : 0 < pace.least) :
    (t.step .tick).2.Sleeps pace (t.now + Clock.milli + (t.swept pace).1) := by
  have hsound := h.sound.step .tick
  obtain ⟨hlow, hup⟩ := Sweeper.delay_bounds pace (t.store.sweepAll (t.now + Clock.milli)).2
    (t.now + Clock.milli)
  have hpos : 0 < min pace.interval pace.least * Clock.milli :=
    Nat.mul_pos (Nat.lt_min.2 ⟨hinterval, hleast⟩) (by decide)
  rw [h.tick_due hwake] at hsound ⊢
  exact ⟨hsound, rfl, Nat.lt_add_of_pos_right (Nat.lt_of_lt_of_le hpos hlow), Nat.add_le_add_left hup _⟩

/-- A sweeper that starts goes to sleep for an interval. -/
theorem Sound.sleeps_start (h : t.Sound) (pace : Pace) (hinterval : 0 < pace.interval) :
    (t.step (.start pace)).2.Sleeps pace (t.now + pace.interval * Clock.milli) ∧
    (t.step (.start pace)).2.now = t.now ∧ (t.step (.start pace)).2.started = t.started + 1 ∧
    (t.step (.start pace)).2.sweeps = t.sweeps := by
  have hsound := h.step (.start pace)
  have hlater : t.now < (Sweeper.start pace t.now).wake :=
    Nat.lt_add_of_pos_right (Nat.mul_pos hinterval (by decide))
  have hstep : (t.step (.start pace)).2 = { t with
      started := t.started + 1
      runners := [⟨t.started + 1, Sweeper.start pace t.now, false⟩] } := by
    show (t.signal.spawn pace).settle = _
    rw [h.settle_spawn, wakeUp_asleep rfl hlater]
    simp only [List.nil_append]
  rw [hstep] at hsound ⊢
  exact ⟨⟨hsound, rfl, hlater, Nat.add_le_add_left (Nat.mul_le_mul_right _ (Nat.le_max_left _ _)) _⟩,
    rfl, rfl, rfl⟩

/-- An event that leaves the sweeper to itself leaves it asleep, or asleep again. -/
theorem Sleeps.step (h : t.Sleeps pace wake) (hinterval : 0 < pace.interval) (hleast : 0 < pace.least)
    (he : e.Quiet) :
    ∃ wake', (t.step e).2.Sleeps pace wake' ∧ (t.step e).2.started = t.started := by
  cases e with
  | start _ => exact he.elim
  | stop => exact he.elim
  | operation op => exact ⟨wake, h.operation op, rfl⟩
  | tick =>
    by_cases hwake : wake ≤ t.now + Clock.milli
    · exact ⟨_, h.due hwake hinterval hleast, by rw [h.tick_due hwake]⟩
    · have hearly := Nat.lt_of_not_le hwake
      exact ⟨_, h.early hearly, by rw [h.tick_early hearly]⟩

/-- A sweeper lives on while it is left to itself. -/
theorem Sleeps.life (hinterval : 0 < pace.interval) (hleast : 0 < pace.least) :
    ∀ (events : List Event) {t : Timeline} {wake : Instant}, t.Sleeps pace wake → (∀ e ∈ events, e.Quiet) →
      ∃ wake', (t.after events).Sleeps pace wake' ∧ (t.after events).started = t.started
  | [], t, wake, h, _ => ⟨wake, h, rfl⟩
  | e :: events, t, wake, h, hquiet => by
    obtain ⟨hfirst, hrest⟩ := List.forall_mem_cons.mp hquiet
    obtain ⟨wake', hsleeps, hstarted⟩ := h.step hinterval hleast hfirst
    obtain ⟨last, hlast, hsame⟩ := Sleeps.life hinterval hleast events hsleeps hrest
    exact ⟨last, hlast, hsame.trans hstarted⟩

/-! ### The next sweep -/

/-- As long as the sweepers are left to themselves, this sweeper does not sweep before that time, and then
it does. -/
def SweepsNext (t : Timeline) (n : Nat) (next : Instant) : Prop :=
  ∀ events : List Event, (∀ e ∈ events, e.Quiet) →
    ((t.after events).now < next → (t.after events).sweepsBy n = t.sweepsBy n) ∧
    (next ≤ (t.after events).now → t.sweepsBy n ++ [next] <+: (t.after events).sweepsBy n)

/-- It sweeps `k` ticks later, if that is the first tick at which it has slept enough. What else happens
until then leaves both as they are: the induction is on the events, and each tick takes one off `k`. -/
theorem Sleeps.sweepsNext_tick : ∀ (events : List Event) {t : Timeline} (k : Nat), t.Sleeps pace wake →
    wake ≤ t.now + k * Clock.milli → t.now + k * Clock.milli < wake + Clock.milli →
    (∀ e ∈ events, e.Quiet) →
    ((t.after events).now < t.now + k * Clock.milli →
      (t.after events).sweepsBy t.started = t.sweepsBy t.started) ∧
    (t.now + k * Clock.milli ≤ (t.after events).now →
      t.sweepsBy t.started ++ [t.now + k * Clock.milli] <+: (t.after events).sweepsBy t.started)
  | [], t, k, h, hlow, _, _ => by
    have hahead : t.now < t.now + k * Clock.milli := Nat.lt_of_lt_of_le h.later hlow
    exact ⟨fun _ => rfl, fun hle => absurd hahead (Nat.not_lt.2 hle)⟩
  | .start _ :: _, _, _, _, _, _, hquiet => (hquiet _ List.mem_cons_self).elim
  | .stop :: _, _, _, _, _, _, hquiet => (hquiet _ List.mem_cons_self).elim
  | .operation op :: events, t, k, h, hlow, hup, hquiet =>
    Sleeps.sweepsNext_tick events k (h.operation op) hlow hup fun e he => hquiet e (List.mem_cons_of_mem _ he)
  | .tick :: events, t, k, h, hlow, hup, hquiet => by
    have hlater := h.later
    by_cases hwake : wake ≤ t.now + Clock.milli
    · obtain rfl : k = 1 := by
        unfold Clock.milli at hlow hup hwake
        lia
      have hgrows : (t.step .tick).2.now ≤ (t.after (.tick :: events)).now :=
        (after_grows events (t.step .tick).2).1
      have hsweeps : (t.step .tick).2.sweepsBy t.started <+: (t.after (.tick :: events)).sweepsBy t.started :=
        sweepsBy_prefix_after (t.step .tick).2 events t.started
      rw [now_tick] at hgrows
      rw [h.sweepsBy_due hwake] at hsweeps
      rw [Nat.one_mul]
      exact ⟨fun hlt => absurd hgrows (Nat.not_le.2 hlt), fun _ => hsweeps⟩
    · have hearly := Nat.lt_of_not_le hwake
      obtain ⟨j, rfl⟩ : ∃ j, k = j + 1 := ⟨k - 1, by unfold Clock.milli at hlow; lia⟩
      have hk : t.now + (j + 1) * Clock.milli = (t.step .tick).2.now + j * Clock.milli := by
        rw [now_tick, Nat.succ_mul]
        lia
      have hstarted : (t.step .tick).2.started = t.started := by rw [h.tick_early hearly]
      rw [hk] at hlow hup ⊢
      have hrest := Sleeps.sweepsNext_tick events j (h.early hearly) hlow hup
        fun e he => hquiet e (List.mem_cons_of_mem _ he)
      rwa [hstarted, h.sweepsBy_early hearly] at hrest

/-- The first tick at or after a later time. -/
theorem exists_first_tick {now wake : Instant} (h : now < wake) : ∃ k, wake ≤ now + k * Clock.milli ∧
    now + k * Clock.milli < wake + Clock.milli ∧ ∀ j, wake ≤ now + j * Clock.milli → k ≤ j := by
  have hsome : ∃ k, wake ≤ now + k * Clock.milli := ⟨wake, by unfold Clock.milli; lia⟩
  refine ⟨Nat.find hsome, Nat.find_spec hsome, ?_, fun j hj => Nat.find_min' hsome hj⟩
  cases hk : Nat.find hsome with
  | zero =>
    rw [Nat.zero_mul]
    lia
  | succ k =>
    have hearly : ¬ wake ≤ now + k * Clock.milli := Nat.find_min hsome (by omega)
    rw [Nat.succ_mul]
    lia

/-- **A sweeper sweeps at the first tick at which it has slept enough.** -/
theorem Sleeps.sweepsNext (h : t.Sleeps pace wake) : ∃ next, t.SweepsNext t.started next ∧ wake ≤ next ∧
    ∀ k, wake ≤ t.now + k * Clock.milli → next ≤ t.now + k * Clock.milli := by
  obtain ⟨k, hlow, hup, hleast⟩ := exists_first_tick h.later
  refine ⟨t.now + k * Clock.milli, fun events => Sleeps.sweepsNext_tick events k h hlow hup, hlow, fun j hj => ?_⟩
  exact Nat.add_le_add_left (Nat.mul_le_mul_right _ (hleast j hj)) _

/-! ### After a sweep -/

/-- The sweeper sweeps at a tick only, and only when its time has come. -/
theorem Sleeps.sweeps (h : t.Sleeps pace wake) (he : e.Quiet)
    (hsweeps : (t.step e).2.sweepsBy t.started ≠ t.sweepsBy t.started) :
    e = .tick ∧ wake ≤ t.now + Clock.milli := by
  cases e with
  | start _ => exact he.elim
  | stop => exact he.elim
  | operation op => exact absurd rfl hsweeps
  | tick =>
    exact ⟨rfl, Nat.le_of_not_lt fun hearly => hsweeps (h.sweepsBy_early hearly)⟩

/-- What comes of a sweep at the next tick: for when it is settled that the sweeper sweeps next. -/
structure Paced (t : Timeline) (pace : Pace) (next : Instant) : Prop where
  linear : t.store.mode = .linear → next = t.now + pace.interval * Clock.milli
  least : t.store.mode = .heap → t.now + min pace.interval pace.least * Clock.milli ≤ next
  most : t.store.mode = .heap → next ≤ t.now + max pace.interval pace.least * Clock.milli
  due : t.store.mode = .heap → ∀ due, t.store.Earliest (some due) →
    ∀ k, max due (t.now + pace.least * Clock.milli) ≤ t.now + k * Clock.milli →
      next ≤ t.now + k * Clock.milli

theorem Sleeps.paced (h : t.Sleeps pace wake) (hwake : wake ≤ t.now + Clock.milli)
    (hinterval : 0 < pace.interval) (hleast : 0 < pace.least) :
    ∃ next, (t.step .tick).2.SweepsNext t.started next ∧ (t.step .tick).2.Paced pace next := by
  obtain ⟨next, hnext, hlow, hsoonest⟩ := (h.due hwake hinterval hleast).sweepsNext
  have hswept := (h.sound.placed.sweepAll (t.now + Clock.milli)).1
  have hmode : (t.swept pace).2.mode = (t.store.sweepAll (t.now + Clock.milli)).2.mode :=
    Sweeper.mode_delay ..
  obtain ⟨hshort, hlong⟩ := Sweeper.delay_bounds pace (t.store.sweepAll (t.now + Clock.milli)).2
    (t.now + Clock.milli)
  rw [h.tick_due hwake] at hnext hsoonest ⊢
  refine ⟨next, hnext, ⟨fun hlinear => ?_, fun _ => ?_, fun _ => ?_, fun hheap due hdue k hk => ?_⟩⟩
  · have hdelay : (t.swept pace).1 = pace.interval * Clock.milli :=
      Sweeper.delay_linear (hmode.symm.trans hlinear)
    rw [hdelay] at hlow hsoonest
    exact Nat.le_antisymm (hsoonest _ (Nat.le_refl _)) hlow
  · exact Nat.le_trans (Nat.add_le_add_left hshort _) hlow
  · exact hsoonest _ (Nat.add_le_add_left hlong _)
  · have hbound : t.now + Clock.milli + (t.swept pace).1 ≤
        max due (t.now + Clock.milli + pace.least * Clock.milli) :=
      Sweeper.delay_le_earliest hswept (hmode.symm.trans hheap) hdue
    exact hsoonest k (Nat.le_trans hbound hk)

/-! ### Keys whose deadline is reached -/

theorem Sleeps.binding?_due (h : t.Sleeps pace wake) (hwake : wake ≤ t.now + Clock.milli) (key : Bytes) :
    (t.step .tick).2.store.binding? key = Binding.live (t.now + Clock.milli) (t.store.binding? key) := by
  obtain ⟨hplaced, hbinding⟩ := h.sound.placed.sweepAll (t.now + Clock.milli)
  rw [h.tick_due hwake]
  exact ((hplaced.delay pace (t.now + Clock.milli)).same key).trans (hbinding key)

/-- **No key stays for longer than the longest sleep once its deadline is reached.** Here the last event is the
one at which the sweeper's time comes at the latest. -/
theorem Sleeps.takes {key : Bytes} {due : Instant} : ∀ (events : List Event) {t : Timeline},
    t.Sleeps pace wake → (∀ e ∈ events, e.Quiet) → wake ≤ t.now + events.count .tick * Clock.milli →
    due ≤ t.now →
    (∀ front, front <+: events → front ≠ events →
      ((t.after front).store.binding? key).bind Binding.deadline = some due) →
    (t.after events).store.binding? key = none
  | [], t, h, _, hwake, _, _ => by
    have hlater := h.later
    rw [List.count_nil, Nat.zero_mul] at hwake
    exact absurd hlater (Nat.not_lt.2 hwake)
  | .start _ :: _, _, _, hquiet, _, _, _ => (hquiet _ List.mem_cons_self).elim
  | .stop :: _, _, _, hquiet, _, _, _ => (hquiet _ List.mem_cons_self).elim
  | .operation op :: events, t, h, hquiet, hwake, hdue, hheld => by
    have hne : Event.operation op ≠ .tick := nofun
    rw [List.count_cons_of_ne hne] at hwake
    exact Sleeps.takes events (h.operation op) (fun e he => hquiet e (List.mem_cons_of_mem _ he)) hwake hdue
      fun front hfront hless => hheld (.operation op :: front) (List.cons_prefix_cons.2 ⟨rfl, hfront⟩)
        fun heq => hless (List.cons.inj heq).2
  | .tick :: events, t, h, hquiet, hwake, hdue, hheld => by
    by_cases hnow : wake ≤ t.now + Clock.milli
    · have hthere := hheld [] List.nil_prefix nofun
      have hgone : (t.step .tick).2.store.binding? key = none := by
        rw [h.binding?_due hnow]
        exact Binding.live_of_le hthere (Nat.le_trans hdue (Nat.le_add_right _ _))
      cases events with
      | nil => rwa [after_singleton]
      | cons e events =>
        have hstill := hheld [.tick] (List.cons_prefix_cons.2 ⟨rfl, List.nil_prefix⟩) nofun
        rw [after_singleton, hgone] at hstill
        cases hstill
    · have hearly := Nat.lt_of_not_le hnow
      rw [List.count_cons_self, Nat.succ_mul] at hwake
      have hcount : wake ≤ (t.step .tick).2.now + events.count .tick * Clock.milli := by
        rw [now_tick, Nat.add_right_comm, Nat.add_assoc]
        exact hwake
      have hpast : due ≤ (t.step .tick).2.now := by
        rw [now_tick]
        exact Nat.le_trans hdue (Nat.le_add_right _ _)
      have hrest : ∀ front, front <+: events → front ≠ events →
          (((t.step .tick).2.after front).store.binding? key).bind Binding.deadline = some due := by
        intro front hfront hless
        rw [← after_cons]
        exact hheld _ (List.cons_prefix_cons.2 ⟨rfl, hfront⟩) fun heq => hless (List.cons.inj heq).2
      rw [after_cons]
      exact Sleeps.takes events (h.early hearly) (fun e he => hquiet e (List.mem_cons_of_mem _ he)) hcount hpast hrest

/-! ### The theorem -/

/-- **The sweeper keeps its pace**, whatever has happened before it starts and whatever is done to the store
meanwhile. It first sweeps one interval after its start. Whenever it sweeps it is settled when it sweeps next, as
its pace and the earliest deadline say. A key is gone at the latest when its deadline has been reached, and
unchanged, for the longest sleep. Once another sweeper starts, or it is told to stop, it never sweeps again,
whatever happens then. -/
theorem sweeper_keeps_pace (hash : Bytes → UInt64) (count : Nat) (mode : Mode) (history : List Store.Step)
    (now : Instant) (events : List Event) (pace : Pace) (hinterval : 0 < pace.interval)
    (hleast : 0 < pace.least) :
    let t := (ofStore ((Store.emptyBy hash count mode).after history) now).after events
    let u := (t.step (.start pace)).2
    u.sweepsBy u.started = [] ∧ u.SweepsNext u.started (t.now + pace.interval * Clock.milli) ∧
    ∀ life : List Event, (∀ e ∈ life, e.Quiet) →
      let v := u.after life
      (∀ e : Event, e.Quiet → (v.step e).2.sweepsBy u.started ≠ v.sweepsBy u.started →
        (v.step e).2.sweepsBy u.started = v.sweepsBy u.started ++ [(v.step e).2.now] ∧
        ∃ next, (v.step e).2.SweepsNext u.started next ∧ (v.step e).2.Paced pace next) ∧
      (∀ (key : Bytes) (due : Instant) (rest : List Event), (∀ e ∈ rest, e.Quiet) → due ≤ v.now →
        max pace.interval pace.least ≤ rest.count .tick →
        (∀ front, front <+: rest → front ≠ rest →
          ((v.after front).store.binding? key).bind Binding.deadline = some due) →
        (v.after rest).store.binding? key = none) ∧
      ∀ (e : Event) (rest : List Event), ¬ e.Quiet →
        (v.after (e :: rest)).sweepsBy u.started = v.sweepsBy u.started := by
  intro t u
  have ht : t.Sound := (sound_ofStore (Store.placed_after hash count mode history) now).after events
  obtain ⟨hsleeps, hnow, hstarted, hsweeps⟩ := ht.sleeps_start pace hinterval
  refine ⟨?_, ?_, fun life hlife => ?_⟩
  · refine List.filterMap_eq_nil_iff.2 fun sweep hsweep => if_neg ?_
    rw [hsweeps] at hsweep
    rw [hstarted]
    exact Nat.ne_of_lt (Nat.lt_succ_of_le (ht.numbered sweep hsweep))
  · obtain ⟨next, hnext, hlow, hsoonest⟩ := hsleeps.sweepsNext
    rw [hnow] at hsoonest
    rwa [Nat.le_antisymm (hsoonest _ (Nat.le_refl _)) hlow] at hnext
  · obtain ⟨wake, hv, hsame⟩ := Sleeps.life hinterval hleast life hsleeps hlife
    rw [show u.started = (u.after life).started from hsame.symm]
    refine ⟨fun e he hsweep => ?_, fun key due rest hrest hdue hcount hheld => ?_, fun e rest he => ?_⟩
    · obtain ⟨rfl, hwake⟩ := hv.sweeps he hsweep
      refine ⟨?_, hv.paced hwake hinterval hleast⟩
      rw [hv.sweepsBy_due hwake, now_tick]
    · refine hv.takes rest hrest (hv.soon.trans ?_) hdue hheld
      exact Nat.add_le_add_left (Nat.mul_le_mul_right _ hcount) _
    · obtain ⟨hover, hkept⟩ := hv.sound.over_of_not_quiet he
      exact (hover.after rest).trans hkept

/-- A key whose deadline is reached when it is set stays until the first sweep, three ticks later. -/
theorem sweeper_keeps_pace_overdue :
    let key : Bytes := [107]
    let s := (Store.emptyBy (fun _ => 0) 2 .heap).after [.operation (.setWithDeadline key [118] 0)]
    let u := (((ofStore s 0).after []).step (.start ⟨3, 1⟩)).2
    0 < 3 ∧ 0 < 1 ∧ u.SweepsNext u.started (0 + 3 * Clock.milli) ∧
    ((u.after [.tick, .tick]).store.binding? key).bind Binding.deadline = some 0 ∧
    (u.after [.tick, .tick, .tick]).store.binding? key = none := by
  intro key s u
  have hheld : ∀ k < 3,
      ((u.after (List.replicate k .tick)).store.binding? key).bind Binding.deadline = some 0 := by decide +kernel
  obtain ⟨-, hfirst, hlife⟩ := sweeper_keeps_pace (fun _ => 0) 2 .heap
    [.operation (.setWithDeadline key [118] 0)] 0 [] ⟨3, 1⟩ (by decide) (by decide)
  obtain ⟨-, htakes, -⟩ := hlife [] nofun
  refine ⟨by decide, by decide, hfirst, hheld 2 (by decide), ?_⟩
  refine htakes key 0 [.tick, .tick, .tick] (by simp [Event.Quiet]) (Nat.zero_le _) (by decide) ?_
  intro front hfront hless
  have hshort : front.length < 3 :=
    Nat.lt_of_le_of_ne hfront.length_le fun heq => hless (hfront.eq_of_length heq)
  have hticks : front = List.replicate front.length .tick :=
    List.eq_replicate_of_mem fun e he => by simpa using hfront.subset he
  rw [hticks]
  exact hheld _ hshort

end Timeline
end Keyspace
