/-
# One sweeper at a time

In the background of a store there is one sweeper at most, the one that started last: when another one
starts, or when it is told to stop, the sweeper ends before it can sweep again (`Sound.step`). So one sweeper
at most wakes up at a tick, and the sweeps of a sweeper that has ended are all that it will ever have made
(`Over.after`).

Key definitions: `Timeline.after`, `Timeline.sweepsBy`, `Timeline.Sound`, `Timeline.Over`.
Key theorems: `Sound.step`, `Sound.after`, `Over.after`.
-/
import Keyspace.Sweeper
import Keyspace.Proofs.Store.Sweeping

namespace Keyspace

/-! ### What a sweeper does to the store -/

namespace Sweeper

variable {s : Store} {now : Instant} {w : Sweeper}

theorem tick_due (h : w.wake ≤ now) : w.tick s now =
    ({ w with wake := now + (delay w.pace (s.sweepAll now).2 now).1 },
      (delay w.pace (s.sweepAll now).2 now).2) := by
  have hdue : w.isDue now = true := by simpa [isDue] using h
  simp [tick, hdue]

theorem tick_not_due (h : now < w.wake) : w.tick s now = (w, s) := by
  have hdue : w.isDue now = false := by simpa [isDue] using h
  simp [tick, hdue]

end Sweeper

namespace Store

variable {s : Store}

/-- Finding out how long to sleep leaves every binding. -/
theorem Placed.delay (h : s.Placed) (pace : Pace) (now : Instant) :
    Alike (Sweeper.delay pace s now).2 s := by
  have hnext : Alike s.nextDue.2 s := ⟨h.nextDue.1, h, h.nextDue.2⟩
  unfold Sweeper.delay
  cases hmode : s.mode with
  | linear => exact h.alike
  | heap =>
    dsimp only
    split
    · next hdue => rwa [hdue] at hnext
    · next hdue => rwa [hdue] at hnext

/-- A sweeper whose time has come takes the bindings that are not live. -/
theorem Placed.sweeperTick (h : s.Placed) (w : Sweeper) (now : Instant) :
    (w.tick s now).2.Placed ∧
      (w.wake ≤ now → ∀ key, (w.tick s now).2.binding? key = Binding.live now (s.binding? key)) := by
  obtain ⟨hplaced, hbinding⟩ := h.sweepAll now
  have hdelay := hplaced.delay w.pace now
  by_cases hdue : w.wake ≤ now
  · rw [Sweeper.tick_due hdue]
    exact ⟨hdelay.left, fun _ key => (hdelay.same key).trans (hbinding key)⟩
  · rw [Sweeper.tick_not_due (Nat.lt_of_not_le hdue)]
    exact ⟨h, fun hle => absurd hle hdue⟩

end Store

namespace Timeline

variable {t : Timeline} {n : Nat} {w : Sweeper} {r : Runner} {e : Event}

/-- The timeline after some events. -/
def after (t : Timeline) (events : List Event) : Timeline := events.foldl (fun t e => (t.step e).2) t

/-- The event leaves the sweepers to themselves. -/
def Event.Quiet : Event → Prop
  | tick => True
  | operation _ => True
  | start _ => False
  | stop => False

/-- When a sweeper has swept so far. -/
def sweepsBy (t : Timeline) (n : Nat) : List Instant :=
  t.sweeps.filterMap fun sweep => if sweep.1 = n then some sweep.2 else none

theorem after_singleton (t : Timeline) (e : Event) : t.after [e] = (t.step e).2 := rfl

theorem after_cons (t : Timeline) (e : Event) (events : List Event) :
    t.after (e :: events) = (t.step e).2.after events := rfl

/-! ### What a sweeper does when it wakes up -/

theorem wakeUp_stopped (t : Timeline) (h : r.stopped = true) : t.wakeUp r = t := if_pos h

theorem wakeUp_asleep (hr : r.stopped = false) (h : t.now < r.sweeper.wake) :
    t.wakeUp r = { t with runners := t.runners ++ [r] } := by
  have hdue : r.sweeper.isDue t.now = false := by simpa [Sweeper.isDue] using h
  simp [wakeUp, hr, hdue]

theorem wakeUp_due (hr : r.stopped = false) (h : r.sweeper.wake ≤ t.now) :
    t.wakeUp r = { t with
      store := (r.sweeper.tick t.store t.now).2
      runners := t.runners ++ [{ r with sweeper := (r.sweeper.tick t.store t.now).1 }]
      sweeps := t.sweeps ++ [(r.number, t.now)] } := by
  have hdue : r.sweeper.isDue t.now = true := by simpa [Sweeper.isDue] using h
  simp [wakeUp, hr, hdue]

theorem settle_of_none (h : t.runners = []) : t.settle = t := by
  rw [settle, h]
  cases t
  cases h
  rfl

theorem settle_of_one (h : t.runners = [r]) : t.settle = wakeUp { t with runners := [] } r := by
  rw [settle, h]
  rfl

theorem settle_of_stopped {rs : List Runner} (h : t.runners = r :: rs) (hr : r.stopped = true) :
    t.settle = settle { t with runners := rs } := by
  rw [settle, h, List.foldl_cons, wakeUp_stopped _ hr]
  rfl

/-! ### The sweepers that there are -/

/-- One sweeper at most is in the background, the last one, and only those that have started have swept. -/
structure Sound (t : Timeline) : Prop where
  placed : t.store.Placed
  one : t.runners = [] ∨ ∃ w, t.runners = [⟨t.started, w, false⟩]
  numbered : ∀ sweep ∈ t.sweeps, sweep.1 ≤ t.started

theorem sound_ofStore {s : Store} (h : s.Placed) (now : Instant) : (ofStore s now).Sound where
  placed := h
  one := .inl rfl
  numbered := nofun

/-- The only sweeper wakes up, and stays the only one. -/
theorem Sound.wakeUp (h : t.Sound) (hnone : t.runners = []) (w : Sweeper) :
    (t.wakeUp ⟨t.started, w, false⟩).Sound := by
  by_cases hdue : w.wake ≤ t.now
  · rw [wakeUp_due rfl hdue]
    refine ⟨(h.placed.sweeperTick w t.now).1, .inr ⟨_, by rw [hnone]; rfl⟩, fun sweep hsweep => ?_⟩
    rcases List.mem_append.1 hsweep with hold | hnew
    · exact h.numbered sweep hold
    · exact Nat.le_of_eq (congrArg Prod.fst (List.mem_singleton.1 hnew))
  · rw [wakeUp_asleep rfl (Nat.lt_of_not_le hdue)]
    exact ⟨h.placed, .inr ⟨w, by rw [hnone]; rfl⟩, h.numbered⟩

/-- With no sweeper in the background. -/
theorem Sound.alone (h : t.Sound) : Sound { t with runners := [] } := ⟨h.placed, .inl rfl, h.numbered⟩

/-- The last sweeper sees that it should stop before it can sweep again. -/
theorem Sound.settle_signal (h : t.Sound) : t.signal.settle = { t with runners := [] } := by
  obtain hnone | ⟨w, hone⟩ := h.one
  · rw [settle_of_none (by rw [signal, hnone]; rfl), signal, hnone]
    rfl
  · have hsignal : t.signal = { t with runners := [⟨t.started, w, true⟩] } := by simp [signal, hone]
    rw [hsignal, settle_of_one rfl, wakeUp_stopped _ rfl]

/-- A sweeper that starts is the only one. -/
theorem Sound.settle_spawn (h : t.Sound) (pace : Pace) : (t.signal.spawn pace).settle =
    Timeline.wakeUp { t with started := t.started + 1, runners := [] }
      ⟨t.started + 1, Sweeper.start pace t.now, false⟩ := by
  have hsettle : settle { t with
      started := t.started + 1, runners := [⟨t.started + 1, Sweeper.start pace t.now, false⟩] } = _ :=
    settle_of_one rfl
  obtain hnone | ⟨w, hone⟩ := h.one
  · have hspawn : t.signal.spawn pace = { t with
        started := t.started + 1, runners := [⟨t.started + 1, Sweeper.start pace t.now, false⟩] } := by
      simp only [signal, spawn, hnone, List.map_nil, List.nil_append]
    rw [hspawn, hsettle]
  · have hspawn : t.signal.spawn pace = { t with
        started := t.started + 1
        runners := [⟨t.started, w, true⟩, ⟨t.started + 1, Sweeper.start pace t.now, false⟩] } := by
      simp only [signal, spawn, hone, List.map_cons, List.map_nil, if_true, List.cons_append, List.nil_append]
    rw [hspawn, settle_of_stopped rfl rfl, hsettle]

theorem Sound.step (h : t.Sound) (e : Event) : (t.step e).2.Sound := by
  cases e with
  | tick =>
    have hlater : Sound { t with now := t.now + Clock.milli } := ⟨h.placed, h.one, h.numbered⟩
    show (settle { t with now := t.now + Clock.milli }).Sound
    obtain hnone | ⟨w, hone⟩ := h.one
    · rw [settle_of_none (t := { t with now := t.now + Clock.milli }) hnone]
      exact hlater
    · rw [settle_of_one (t := { t with now := t.now + Clock.milli }) hone]
      exact hlater.alone.wakeUp rfl w
  | start pace =>
    show (t.signal.spawn pace).settle.Sound
    rw [h.settle_spawn]
    have hnext : Sound { t with started := t.started + 1, runners := [] } :=
      ⟨h.placed, .inl rfl, fun sweep hsweep => Nat.le_succ_of_le (h.numbered sweep hsweep)⟩
    exact hnext.wakeUp rfl _
  | stop =>
    show t.signal.settle.Sound
    rw [h.settle_signal]
    exact h.alone
  | operation op => exact ⟨(h.placed.alike.run op).2.left, h.one, h.numbered⟩

/-- **There is one sweeper at most at any time.** -/
theorem Sound.after (h : t.Sound) (events : List Event) : (t.after events).Sound :=
  List.foldlRecOn events _ h fun _ ht e _ => ht.step e

/-! ### Time and sweeps only grow -/

theorem wakeUp_grows (t : Timeline) (r : Runner) :
    (t.wakeUp r).now = t.now ∧ t.sweeps <+: (t.wakeUp r).sweeps := by
  unfold wakeUp
  split
  · exact ⟨rfl, List.prefix_refl _⟩
  · split
    · exact ⟨rfl, List.prefix_append _ _⟩
    · exact ⟨rfl, List.prefix_refl _⟩

theorem settle_grows (t : Timeline) : t.settle.now = t.now ∧ t.sweeps <+: t.settle.sweeps :=
  List.foldlRecOn (motive := fun u : Timeline => u.now = t.now ∧ t.sweeps <+: u.sweeps) t.runners wakeUp
    ⟨rfl, List.prefix_refl _⟩ fun u hu r _ =>
      ⟨(wakeUp_grows u r).1.trans hu.1, hu.2.trans (wakeUp_grows u r).2⟩

theorem now_tick (t : Timeline) : (t.step .tick).2.now = t.now + Clock.milli :=
  (settle_grows { t with now := t.now + Clock.milli }).1

theorem step_grows (t : Timeline) (e : Event) :
    t.now ≤ (t.step e).2.now ∧ t.sweeps <+: (t.step e).2.sweeps := by
  cases e with
  | tick =>
    rw [now_tick]
    exact ⟨Nat.le_add_right _ _, (settle_grows { t with now := t.now + Clock.milli }).2⟩
  | start pace =>
    obtain ⟨hnow, hsweeps⟩ := settle_grows (t.signal.spawn pace)
    exact ⟨Nat.le_of_eq hnow.symm, hsweeps⟩
  | stop =>
    obtain ⟨hnow, hsweeps⟩ := settle_grows t.signal
    exact ⟨Nat.le_of_eq hnow.symm, hsweeps⟩
  | operation op => exact ⟨Nat.le_refl _, List.prefix_refl _⟩

theorem after_grows : ∀ (events : List Event) (t : Timeline),
    t.now ≤ (t.after events).now ∧ t.sweeps <+: (t.after events).sweeps
  | [], t => ⟨Nat.le_refl _, List.prefix_refl _⟩
  | e :: events, t => by
    obtain ⟨hnow, hsweeps⟩ := step_grows t e
    obtain ⟨hnow', hsweeps'⟩ := after_grows events (t.step e).2
    exact ⟨hnow.trans hnow', hsweeps.trans hsweeps'⟩

theorem sweepsBy_prefix_after (t : Timeline) (events : List Event) (n : Nat) :
    t.sweepsBy n <+: (t.after events).sweepsBy n :=
  (after_grows events t).2.filterMap _

theorem sweepsBy_append {u : Timeline} {now : Instant} {m : Nat} (h : u.sweeps = t.sweeps ++ [(m, now)]) :
    u.sweepsBy n = if m = n then t.sweepsBy n ++ [now] else t.sweepsBy n := by
  rw [sweepsBy, h, List.filterMap_append]
  by_cases hm : m = n
  · simp [hm, sweepsBy]
  · simp [hm, sweepsBy]

/-! ### Sweepers that have ended -/

/-- The sweeper has started and is no longer in the background. -/
structure Over (t : Timeline) (n : Nat) : Prop where
  started : n ≤ t.started
  ended : ∀ r ∈ t.runners, r.number ≠ n

/-- Another sweeper that wakes up does not bring it back. -/
theorem Over.wakeUp (h : t.Over n) (hr : r.number ≠ n) :
    (t.wakeUp r).Over n ∧ (t.wakeUp r).sweepsBy n = t.sweepsBy n := by
  have hrunners : ∀ w, ∀ r' ∈ t.runners ++ [{ r with sweeper := w }], r'.number ≠ n := fun w r' hr' => by
    rcases List.mem_append.1 hr' with hold | hnew
    · exact h.ended r' hold
    · rwa [List.mem_singleton.1 hnew]
  unfold Timeline.wakeUp
  split
  · exact ⟨h, rfl⟩
  · split
    · exact ⟨⟨h.started, hrunners _⟩, (sweepsBy_append rfl).trans (if_neg hr)⟩
    · exact ⟨⟨h.started, hrunners r.sweeper⟩, rfl⟩

theorem Over.settle (h : t.Over n) : t.settle.Over n ∧ t.settle.sweepsBy n = t.sweepsBy n :=
  List.foldlRecOn (motive := fun u : Timeline => u.Over n ∧ u.sweepsBy n = t.sweepsBy n) t.runners
    Timeline.wakeUp ⟨⟨h.started, nofun⟩, rfl⟩ fun _ hu r hr =>
      ⟨(hu.1.wakeUp (h.ended r hr)).1, (hu.1.wakeUp (h.ended r hr)).2.trans hu.2⟩

theorem Over.step (h : t.Over n) (e : Event) :
    (t.step e).2.Over n ∧ (t.step e).2.sweepsBy n = t.sweepsBy n := by
  have hsignal : ∀ r ∈ t.signal.runners, r.number ≠ n := fun r hr => by
    obtain ⟨r', hr', rfl⟩ := List.mem_map.1 hr
    have hended := h.ended r' hr'
    split
    · exact hended
    · exact hended
  cases e with
  | tick =>
    have hlater : Over { t with now := t.now + Clock.milli } n := ⟨h.started, h.ended⟩
    exact hlater.settle
  | start pace =>
    have hspawn : (t.signal.spawn pace).Over n := by
      refine ⟨Nat.le_succ_of_le h.started, fun r hr => ?_⟩
      rcases List.mem_append.1 hr with hold | hnew
      · exact hsignal r hold
      · rw [List.mem_singleton.1 hnew]
        exact Nat.ne_of_gt (Nat.lt_succ_of_le h.started)
    exact hspawn.settle
  | stop =>
    have hstop : t.signal.Over n := ⟨h.started, hsignal⟩
    exact hstop.settle
  | operation op => exact ⟨⟨h.started, h.ended⟩, rfl⟩

/-- **A sweeper that has ended never sweeps again.** -/
theorem Over.after : ∀ (events : List Event) {t : Timeline}, t.Over n →
    (t.after events).sweepsBy n = t.sweepsBy n
  | [], _, _ => rfl
  | e :: events, t, h => by
    obtain ⟨hover, hsame⟩ := h.step e
    exact (Over.after events hover).trans hsame

/-- Starting another sweeper, or telling the last one to stop, ends it. -/
theorem Sound.over_of_not_quiet (h : t.Sound) (he : ¬ e.Quiet) :
    (t.step e).2.Over t.started ∧ (t.step e).2.sweepsBy t.started = t.sweepsBy t.started := by
  cases e with
  | tick => exact absurd trivial he
  | operation op => exact absurd trivial he
  | stop =>
    show t.signal.settle.Over t.started ∧ t.signal.settle.sweepsBy t.started = _
    rw [h.settle_signal]
    exact ⟨⟨Nat.le_refl _, nofun⟩, rfl⟩
  | start pace =>
    show (t.signal.spawn pace).settle.Over t.started ∧ (t.signal.spawn pace).settle.sweepsBy t.started = _
    rw [h.settle_spawn]
    have halone : Over { t with started := t.started + 1, runners := [] } t.started := ⟨Nat.le_succ _, nofun⟩
    exact halone.wakeUp (Nat.succ_ne_self t.started)

end Timeline
end Keyspace
