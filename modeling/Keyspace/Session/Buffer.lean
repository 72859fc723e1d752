/-
# The read buffer

Octets wait in a buffer until they form a request. A read fills at most the room behind them, and before each
read the buffer makes sure that there is some. How much there is after that, and what becomes of the places whose
octets have been used up, is a matter of the memory behind the buffer: `Memory` says only that it has the room
that was asked for.

`Places` is the memory in use here. It moves the octets to the front when more than they need has been used up
there, and grows otherwise.
-/
import Keyspace.Wire.Value

namespace Keyspace

/-- Memory for octets that wait, in one of the states `μ`. -/
class Memory (μ : Type) where
  /-- How many octets more it has room for. -/
  room : μ → Nat
  /-- Makes room for `n` octets at least. -/
  reserve : μ → Nat → μ
  /-- Octets came in at the end. -/
  fill : μ → Bytes → μ
  /-- Octets were used up at the front. -/
  free : μ → Nat → μ
  le_room_reserve : ∀ (m : μ) (n : Nat), n ≤ room (reserve m n)

/-- Octets that wait to be framed. -/
structure ReadBuffer (μ : Type) where
  pending : Bytes
  memory : μ
  deriving DecidableEq, Repr

namespace ReadBuffer

/-- How much room a buffer asks for. -/
def step : Nat := 4096

/-- How many octets may wait: one bulk of the greatest length with its framing. -/
def limit : Nat := Wire.maxBulk + 64 * 1024

/-- With less room than this a buffer makes room before a read. -/
def leastRoom : Nat := 1024

variable {μ : Type} [Memory μ]

/-- How many octets the next read may bring. -/
def room (b : ReadBuffer μ) : Nat := Memory.room b.memory

/-- Makes room for a read. -/
def makeRoom (b : ReadBuffer μ) : ReadBuffer μ :=
  if b.room < leastRoom then { b with memory := Memory.reserve b.memory step } else b

/-- Adds octets at the end. -/
def add (b : ReadBuffer μ) (data : Bytes) : ReadBuffer μ :=
  { pending := b.pending ++ data, memory := Memory.fill b.memory data }

/-- Uses up octets at the front. -/
def consume (b : ReadBuffer μ) (n : Nat) : ReadBuffer μ :=
  { pending := b.pending.drop n, memory := Memory.free b.memory n }

theorem room_makeRoom_pos (b : ReadBuffer μ) : 0 < b.makeRoom.room := by
  unfold makeRoom
  split
  · have hroom := Memory.le_room_reserve b.memory step
    exact Nat.lt_of_lt_of_le (by decide) hroom
  · next h => exact Nat.lt_of_lt_of_le (by decide) (Nat.le_of_not_lt h)

@[simp] theorem pending_makeRoom (b : ReadBuffer μ) : b.makeRoom.pending = b.pending := by
  unfold makeRoom
  split <;> rfl

end ReadBuffer

/-! ### Places -/

/-- Memory of `size` places, of which the first `start` have been used up and the next `waiting` are in use. -/
structure Places where
  waiting : Nat
  start : Nat
  size : Nat
  deriving DecidableEq, Repr

namespace Places

/-- Places for the octets before the first read. -/
def fresh : Places := ⟨0, 0, ReadBuffer.step⟩

/-- The places that are left at the end. -/
def room (p : Places) : Nat := p.size - p.start - p.waiting

/-- Makes room for `n` octets: by moving those that wait to the front, or by growing. -/
def reserve (p : Places) (n : Nat) : Places :=
  if p.waiting ≤ p.start ∧ p.waiting + n ≤ p.size then { p with start := 0 }
  else { p with size := max (2 * p.size) (p.start + p.waiting + n) }

theorem le_room_reserve (p : Places) (n : Nat) : n ≤ (p.reserve n).room := by
  unfold reserve
  split
  · next h =>
    rw [room]
    dsimp only
    omega
  · rw [room]
    dsimp only
    omega

instance : Memory Places where
  room := room
  reserve := reserve
  fill := fun p data => { p with waiting := p.waiting + data.length }
  free := fun p n => { p with waiting := p.waiting - n, start := p.start + n }
  le_room_reserve := le_room_reserve

end Places
end Keyspace
