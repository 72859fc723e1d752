/-
# Readers over a growing buffer

A `Reader α` looks at the octets received so far and says one of three things: the value is
`incomplete` and more octets may complete it; the octets are `malformed`, with the offset at which
this was noticed; or a value is `complete`, with the number of octets that it used. Readers are
stateless: after more octets have arrived the reader is asked again, from the front.

Key definitions: sequencing (`Monad Reader`), the readers of single items (`peek`, `octet`, `line`,
`exactly`, `terminator`) and `times`, a fixed number of readings.

Key theorems:
* `Bounded`: a complete value uses no more octets than there are. Kept by sequencing and `times`.
* `Final`: a verdict other than `incomplete` is not changed by octets that arrive later. Kept by
  sequencing and `times`.
-/
import Keyspace.Wire.Fault
import Keyspace.Wire.Value

namespace Keyspace
namespace Wire

/-- What the octets received so far amount to. -/
inductive Progress (α : Type) where
  | incomplete
  | malformed (fault : Fault) (offset : Nat)
  | complete (value : α) (used : Nat)
  deriving DecidableEq

/-- The same verdict, for octets that begin `n` places further back. -/
def Progress.shift {α : Type} (n : Nat) : Progress α → Progress α
  | .incomplete => .incomplete
  | .malformed fault offset => .malformed fault (n + offset)
  | .complete value used => .complete value (n + used)

/-- Reads a value from the front of a buffer. -/
def Reader (α : Type) := Bytes → Progress α

namespace Reader
variable {α β : Type}

/-- Goes on behind a complete value with the reader that it selects. -/
def andThen (r : Reader α) (next : α → Reader β) : Reader β := fun buf =>
  match r buf with
  | .incomplete => .incomplete
  | .malformed fault offset => .malformed fault offset
  | .complete a n => (next a (buf.drop n)).shift n

/-- Changes a complete value, and reads nothing more. -/
def map (f : α → β) (r : Reader α) : Reader β := fun buf =>
  match r buf with
  | .incomplete => .incomplete
  | .malformed fault offset => .malformed fault offset
  | .complete a n => .complete (f a) n

instance : Monad Reader where
  map := map
  pure a := fun _ => .complete a 0
  bind := andThen

/-! ### Single items -/

/-- Refuses what stands here. -/
def fail (fault : Fault) : Reader α := fun _ => .malformed fault 0

/-- The next octet, which stays. -/
def peek : Reader UInt8
  | [] => .incomplete
  | b :: _ => .complete b 0

/-- The next octet. -/
def octet : Reader UInt8
  | [] => .incomplete
  | b :: _ => .complete b 1

/-- What stands before the first CR LF. -/
def beforeCrlf? : Bytes → Option Bytes
  | a :: b :: bs => if a = cr ∧ b = lf then some [] else (beforeCrlf? (b :: bs)).map (a :: ·)
  | _ => none

/-- A line, which uses its CR LF too. -/
def line : Reader Bytes := fun buf =>
  match beforeCrlf? buf with
  | some l => .complete l (l.length + 2)
  | none => .incomplete

/-- The next `n` octets. -/
def exactly (n : Nat) : Reader Bytes := fun buf =>
  let data := buf.take n
  if data.length = n then .complete data n else .incomplete

/-- CR LF. -/
def terminator : Reader Unit
  | a :: b :: _ => if a = cr ∧ b = lf then .complete () 2 else .malformed .missingTerminator 0
  | _ => .incomplete

/-- The same reading `k` times over. -/
def times (r : Reader α) : Nat → Reader (List α)
  | 0 => pure []
  | k + 1 => do
    let a ← r
    (a :: ·) <$> times r k

/-! ### Using no more than there is -/

/-- Complete values use no more octets than the buffer has. -/
def Bounded (r : Reader α) : Prop := ∀ buf a n, r buf = .complete a n → n ≤ buf.length

theorem pure_apply (a : α) (buf : Bytes) : (pure a : Reader α) buf = .complete a 0 := rfl

theorem bind_apply (r : Reader α) (next : α → Reader β) (buf : Bytes) :
    (r >>= next) buf = match r buf with
      | .incomplete => .incomplete
      | .malformed fault offset => .malformed fault offset
      | .complete a n => (next a (buf.drop n)).shift n := rfl

/-- A complete sequence is made of two complete parts. -/
theorem bind_complete {r : Reader α} {next : α → Reader β} {buf : Bytes} {b : β} {n : Nat}
    (h : (r >>= next) buf = .complete b n) :
    ∃ a m k, r buf = .complete a m ∧ next a (buf.drop m) = .complete b k ∧ n = m + k := by
  rw [bind_apply] at h
  split at h
  · cases h
  · cases h
  · next a m hr =>
    cases hn : next a (buf.drop m) with
    | incomplete => simp [hn, Progress.shift] at h
    | malformed => simp [hn, Progress.shift] at h
    | complete c k =>
      simp only [hn, Progress.shift, Progress.complete.injEq] at h
      exact ⟨a, m, k, hr, h.1 ▸ hn, h.2.symm⟩

theorem Bounded.pure (a : α) : Bounded (pure a : Reader α) := by
  intro buf b n h
  simp only [pure_apply, Progress.complete.injEq] at h
  omega

theorem Bounded.bind {r : Reader α} {next : α → Reader β} (hr : Bounded r)
    (hn : ∀ a, Bounded (next a)) : Bounded (r >>= next) := by
  intro buf b n h
  obtain ⟨a, m, k, h1, h2, rfl⟩ := bind_complete h
  have := hr _ _ _ h1
  have := hn _ _ _ _ h2
  simp only [List.length_drop] at this
  omega

theorem map_apply (f : α → β) (r : Reader α) (buf : Bytes) :
    (f <$> r) buf = match r buf with
      | .incomplete => .incomplete
      | .malformed fault offset => .malformed fault offset
      | .complete a n => .complete (f a) n := rfl

theorem Bounded.map {r : Reader α} (f : α → β) (hr : Bounded r) : Bounded (f <$> r) := by
  intro buf b n h
  rw [map_apply] at h
  split at h
  · cases h
  · cases h
  · next a m hm =>
    cases h
    exact hr _ _ _ hm

theorem Bounded.fail (fault : Fault) : Bounded (fail fault : Reader α) := by
  intro buf a n h
  cases h

theorem Bounded.ite {p : Prop} [Decidable p] {r s : Reader α} (hr : Bounded r) (hs : Bounded s) :
    Bounded (if p then r else s) := by
  split <;> assumption

theorem bounded_peek : Bounded peek := by
  intro buf a n h
  cases buf with
  | nil => cases h
  | cons b bs => cases h; simp

theorem bounded_octet : Bounded octet := by
  intro buf a n h
  cases buf with
  | nil => cases h
  | cons b bs => cases h; simp

theorem beforeCrlf?_eq_some {buf l : Bytes} (h : beforeCrlf? buf = some l) :
    ∃ rest, buf = l ++ cr :: lf :: rest := by
  fun_induction beforeCrlf? buf generalizing l with
  | case1 a b bs hab =>
    cases h
    exact ⟨bs, by simp [hab.1, hab.2]⟩
  | case2 a b bs _ ih =>
    obtain ⟨l', hl', rfl⟩ := Option.map_eq_some_iff.1 h
    obtain ⟨rest, hrest⟩ := ih hl'
    exact ⟨rest, by simp [hrest]⟩
  | case3 => cases h

theorem bounded_line : Bounded line := by
  intro buf a n h
  unfold line at h
  split at h
  · next l hl =>
    obtain ⟨rest, rfl⟩ := beforeCrlf?_eq_some hl
    cases h
    simp
  · cases h

theorem bounded_exactly (k : Nat) : Bounded (exactly k) := by
  intro buf a n h
  simp only [exactly] at h
  split at h
  · next hk =>
    cases h
    simp only [List.length_take] at hk
    omega
  · cases h

theorem bounded_terminator : Bounded terminator := by
  intro buf a n h
  unfold terminator at h
  split at h
  · split at h
    · cases h; simp
    · cases h
  · cases h

theorem Bounded.times {r : Reader α} (hr : Bounded r) (k : Nat) : Bounded (times r k) := by
  induction k with
  | zero => exact Bounded.pure []
  | succ k ih => exact hr.bind fun a => ih.map (a :: ·)

/-! ### Verdicts that later octets do not change -/

/-- A verdict other than `incomplete` stays when octets are added behind. -/
def Final (r : Reader α) : Prop :=
  ∀ buf ext, r buf ≠ .incomplete → r (buf ++ ext) = r buf

theorem Final.pure (a : α) : Final (pure a : Reader α) := fun _ _ _ => rfl

theorem Final.fail (fault : Fault) : Final (fail fault : Reader α) := fun _ _ _ => rfl

theorem Final.ite {p : Prop} [Decidable p] {r s : Reader α} (hr : Final r) (hs : Final s) :
    Final (if p then r else s) := by
  split <;> assumption

theorem Final.bind {r : Reader α} {next : α → Reader β} (hb : Bounded r) (hr : Final r)
    (hn : ∀ a, Final (next a)) : Final (r >>= next) := by
  intro buf ext h
  simp only [bind_apply] at h ⊢
  cases hv : r buf with
  | incomplete => simp [hv] at h
  | malformed fault offset =>
    rw [hr buf ext (by simp [hv]), hv]
  | complete a n =>
    rw [hr buf ext (by simp [hv]), hv]
    simp only [hv] at h
    simp only
    rw [List.drop_append_of_le_length (hb _ _ _ hv), hn a]
    intro hi
    simp [hi, Progress.shift] at h

theorem Final.map {r : Reader α} (f : α → β) (hr : Final r) : Final (f <$> r) := by
  intro buf ext h
  simp only [map_apply] at h ⊢
  cases hv : r buf with
  | incomplete => simp [hv] at h
  | malformed fault offset => rw [hr buf ext (by simp [hv]), hv]
  | complete a n => rw [hr buf ext (by simp [hv]), hv]

theorem final_peek : Final peek := by
  intro buf ext h
  cases buf with
  | nil => exact absurd rfl h
  | cons b bs => rfl

theorem final_octet : Final octet := by
  intro buf ext h
  cases buf with
  | nil => exact absurd rfl h
  | cons b bs => rfl

theorem beforeCrlf?_append {buf l : Bytes} (h : beforeCrlf? buf = some l) (ext : Bytes) :
    beforeCrlf? (buf ++ ext) = some l := by
  fun_induction beforeCrlf? buf generalizing l with
  | case1 a b bs hab =>
    cases h
    simp [beforeCrlf?, hab]
  | case2 a b bs hab ih =>
    obtain ⟨l', hl', rfl⟩ := Option.map_eq_some_iff.1 h
    simp only [List.cons_append, beforeCrlf?, hab, if_false] at ih ⊢
    rw [ih hl']
    rfl
  | case3 => cases h

theorem final_line : Final line := by
  intro buf ext h
  unfold line at h ⊢
  cases hl : beforeCrlf? buf with
  | none => simp [hl] at h
  | some l => simp [beforeCrlf?_append hl]

theorem final_exactly (k : Nat) : Final (exactly k) := by
  intro buf ext h
  simp only [exactly] at h ⊢
  split at h
  · next hk =>
    have hle : k ≤ buf.length := by
      simp only [List.length_take] at hk
      omega
    rw [List.take_append_of_le_length hle]
  · exact absurd rfl h

theorem final_terminator : Final terminator := by
  intro buf ext h
  match buf with
  | [] => exact absurd rfl h
  | [_] => exact absurd rfl h
  | a :: b :: bs => rfl

theorem Final.times {r : Reader α} (hb : Bounded r) (hr : Final r) (k : Nat) :
    Final (times r k) := by
  induction k with
  | zero => exact Final.pure []
  | succ k ih =>
    exact hr.bind hb fun a => ih.map (a :: ·)

end Reader
end Wire
end Keyspace
