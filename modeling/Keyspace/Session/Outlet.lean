/-
# Outlets

Replies go to the client through an outlet. What is behind it does not belong to the session, which relies on
little: what is written is held back or reaches the client, in its order, and a flush leaves nothing held back. A
write and a flush may fail at any octet: the client has then some front part of what was written, which may end
inside a reply, and what was held back may be lost. `Outlet` is this interface with its laws.

`Pipe` is the outlet in use here. It holds small writes back until it is flushed or would overflow. The client may
stop taking octets; past the limit of what it takes, whatever is handed over is refused as a whole.
-/
import Keyspace.Bytes

namespace Keyspace

/-- A way to the client, in one of the states `ω`. -/
class Outlet (ω : Type) where
  /-- The octets that reached the client. -/
  sent : ω → Bytes
  /-- The octets held back behind them. -/
  held : ω → Bytes
  /-- Writes octets, and tells the cause if that fails. -/
  write : ω → Bytes → Option String × ω
  /-- Hands over what is held back, and tells the cause if that fails. -/
  flush : ω → Option String × ω
  octets_write : ∀ {o : ω} {data : Bytes}, (write o data).1 = none →
    sent (write o data).2 ++ held (write o data).2 = sent o ++ held o ++ data
  sent_write : ∀ (o : ω) (data : Bytes), sent (write o data).2 <+: sent o ++ held o ++ data
  sent_flush : ∀ o : ω, sent (flush o).2 <+: sent o ++ held o
  octets_flush : ∀ {o : ω}, (flush o).1 = none → sent (flush o).2 ++ held (flush o).2 = sent o ++ held o
  held_flush : ∀ {o : ω}, (flush o).1 = none → held (flush o).2 = []

/-- What was written and not lost: octets that reached the client, and those held back behind them. -/
def Outlet.octets {ω : Type} [Outlet ω] (o : ω) : Bytes := sent o ++ held o

/-! ### Pipes -/

/-- An outlet that holds back small writes. -/
structure Pipe where
  /-- How many octets the client takes, if that is limited. -/
  limit : Option Nat
  /-- Octets held back. -/
  held : Bytes
  /-- Octets that reached the client. -/
  sent : Bytes
  deriving DecidableEq, Repr

namespace Pipe

/-- How many octets are held back at most. -/
def capacity : Nat := 8192

/-- The cause of a failed write. -/
def failure : String := "broken pipe"

/-- The way to a client that has taken nothing yet. -/
def fresh (limit : Option Nat) : Pipe := ⟨limit, [], []⟩

/-- Whether the client takes `n` octets more. -/
def takes (p : Pipe) (n : Nat) : Bool :=
  match p.limit with
  | some limit => p.sent.length + n ≤ limit
  | none => true

/-- Hands octets to the client. -/
def transmit (p : Pipe) (data : Bytes) : Option String × Pipe :=
  if p.takes data.length then (none, { p with sent := p.sent ++ data }) else (some failure, p)

/-- Hands over what is held back. -/
def flush (p : Pipe) : Option String × Pipe :=
  match p.transmit p.held with
  | (none, p) => (none, { p with held := [] })
  | (some cause, p) => (some cause, p)

/-- Sees to it that `n` octets can be held back, if there is ever room for them. -/
def makeRoom (p : Pipe) (n : Nat) : Option String × Pipe :=
  if capacity < p.held.length + n then p.flush else (none, p)

/-- Writes octets: holds them back, after a flush if there is no room for them, or hands them over at
once if there never is. -/
def write (p : Pipe) (data : Bytes) : Option String × Pipe :=
  match p.makeRoom data.length with
  | (some cause, p) => (some cause, p)
  | (none, p) =>
    if capacity ≤ data.length then p.transmit data else (none, { p with held := p.held ++ data })

variable {p : Pipe}

theorem flush_of_takes (h : p.takes p.held.length = true) :
    p.flush = (none, { p with sent := p.sent ++ p.held, held := [] }) := by
  rw [flush, transmit, if_pos h]

theorem flush_of_not_takes (h : ¬ p.takes p.held.length = true) : p.flush = (some failure, p) := by
  rw [flush, transmit, if_neg h]

/-- A flush loses nothing, whether or not it fails. -/
theorem octets_flush (p : Pipe) : p.flush.2.sent ++ p.flush.2.held = p.sent ++ p.held := by
  by_cases h : p.takes p.held.length = true
  · rw [flush_of_takes h, List.append_nil]
  · rw [flush_of_not_takes h]

theorem held_flush (h : p.flush.1 = none) : p.flush.2.held = [] := by
  by_cases htakes : p.takes p.held.length = true
  · rw [flush_of_takes htakes]
  · rw [flush_of_not_takes htakes] at h
    cases h

theorem octets_makeRoom (p : Pipe) (n : Nat) :
    (p.makeRoom n).2.sent ++ (p.makeRoom n).2.held = p.sent ++ p.held := by
  unfold makeRoom
  split
  · exact p.octets_flush
  · rfl

/-- Octets that are too many to be held back find nothing held back before them. -/
theorem held_makeRoom {n : Nat} (hn : capacity ≤ n) (h : (p.makeRoom n).1 = none) :
    (p.makeRoom n).2.held = [] := by
  by_cases hroom : capacity < p.held.length + n
  · rw [makeRoom, if_pos hroom] at h ⊢
    exact held_flush h
  · rw [makeRoom, if_neg hroom]
    have hnone : p.held.length = 0 := by omega
    exact List.eq_nil_of_length_eq_zero hnone

theorem octets_transmit (hheld : p.held = []) (data : Bytes) :
    (p.transmit data).2.sent ++ (p.transmit data).2.held =
      p.sent ++ p.held ++ if (p.transmit data).1 = none then data else [] := by
  unfold transmit
  split
  · rw [if_pos rfl, hheld, List.append_nil, List.append_nil]
  · rw [if_neg nofun, List.append_nil]

/-- A write that succeeds adds its octets, and one that fails none. -/
theorem octets_write (p : Pipe) (data : Bytes) :
    (p.write data).2.sent ++ (p.write data).2.held =
      p.sent ++ p.held ++ if (p.write data).1 = none then data else [] := by
  have hoctets := p.octets_makeRoom data.length
  have hheld := fun hlarge => held_makeRoom (p := p) (n := data.length) hlarge
  unfold write
  generalize p.makeRoom data.length = made at hoctets hheld ⊢
  obtain ⟨failure, q⟩ := made
  rw [← hoctets]
  cases failure with
  | some cause => rw [if_neg nofun, List.append_nil]
  | none =>
    dsimp only
    split
    · next hlarge => exact octets_transmit (hheld hlarge rfl) data
    · rw [if_pos rfl, List.append_assoc]

instance : Outlet Pipe where
  sent := sent
  held := held
  write := write
  flush := flush
  octets_write := fun {p data} h => by rw [octets_write, if_pos h]
  sent_write := fun p data => by
    have hsent : (p.write data).2.sent <+: (p.write data).2.sent ++ (p.write data).2.held :=
      List.prefix_append _ _
    rw [octets_write] at hsent
    refine hsent.trans ((List.prefix_append_right_inj _).mpr ?_)
    split
    · exact List.prefix_refl data
    · exact List.nil_prefix
  sent_flush := fun p => p.octets_flush ▸ List.prefix_append _ _
  octets_flush := fun {p} _ => p.octets_flush
  held_flush := held_flush

end Pipe
end Keyspace
