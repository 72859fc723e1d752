/-
# Dispatching entries

The dispatcher's half of a session takes entries from the queue in order. Requests are gathered into
a batch for the pool; the batch runs when a ready reply has to go out behind it, when it is full, and
when the queue has run empty. The replies are flushed in the last two cases. The dispatcher then waits for the
next entry.

After a failed write or flush it gives up: nothing more is carried out or written.

Key definitions: `Move.plan` lays down what to do with the entries found in the queue, and
`Desk.dispatch` does it through whatever outlet the client has.
-/
import Keyspace.Pool
import Keyspace.Session.Framing
import Keyspace.Session.Outlet

namespace Keyspace

/-! ### What to do -/

/-- One step of the dispatcher. -/
inductive Move where
  /-- Have a batch carried out and write the replies. -/
  | run (batch : List (List Bytes))
  /-- Write a ready reply. -/
  | send (reply : Value)
  /-- Flush what is written. -/
  | flush

namespace Move

/-- How many requests a batch holds at most. -/
def maxBatch : Nat := 128

/-- The moves for the entries in the queue; `batch` is what has been gathered so far. -/
def plan (batch : List (List Bytes)) : List Entry → List Move
  | [] => [.run batch, .flush]
  | .ready reply :: entries => .run batch :: .send reply :: plan [] entries
  | .request args :: entries =>
    let batch := batch ++ [args]
    if batch.length < maxBatch then plan batch entries
    else .run batch :: .flush :: if entries.isEmpty then [] else plan [] entries

/-- The moves for a queue, none for an empty one. -/
def forQueue (entries : List Entry) : List Move := if entries.isEmpty then [] else plan [] entries

end Move

/-! ### Doing it -/

/-- What sessions count, without bound. -/
structure Stats where
  /-- Sessions begun. -/
  accepted : Nat
  /-- Sessions begun and not ended. -/
  active : Nat
  /-- Requests answered. -/
  commands : Nat
  /-- Octets received. -/
  read : Nat
  /-- Octets of replies written. -/
  written : Nat
  deriving DecidableEq, Repr

/-- The counters before the first session. -/
def Stats.zero : Stats := ⟨0, 0, 0, 0, 0⟩

/-- The dispatcher's side of a session. -/
structure Desk (σ ω : Type) where
  state : σ
  stats : Stats
  outlet : ω
  /-- Why a write or a flush has failed, if one has. -/
  failure : Option String

namespace Desk
variable {σ ω : Type}

/-- Whether the dispatcher has given up. -/
def gone (d : Desk σ ω) : Bool := d.failure.isSome

/-- A request is being answered. -/
def countCommand (d : Desk σ ω) : Desk σ ω :=
  { d with stats := { d.stats with commands := d.stats.commands + 1 } }

/-- So many octets of a reply are written. -/
def countWritten (d : Desk σ ω) (n : Nat) : Desk σ ω :=
  { d with stats := { d.stats with written := d.stats.written + n } }

variable [Outlet ω]

/-- Flushes the replies. -/
def flush (d : Desk σ ω) : Desk σ ω :=
  if d.gone then d
  else
    let (failure, outlet) := Outlet.flush d.outlet
    { d with outlet, failure }

/-- Writes octets. -/
def write (d : Desk σ ω) (data : Bytes) : Desk σ ω :=
  let (failure, outlet) := Outlet.write d.outlet data
  { d with outlet, failure }

/-- Writes a reply. Its octets are counted once all are written. -/
def send (d : Desk σ ω) (reply : Value) : Desk σ ω :=
  if d.gone then d
  else
    let d := d.write reply.encode
    if d.gone then d else d.countWritten reply.encode.length

/-- Writes the reply to a request. -/
def sendAnswer (d : Desk σ ω) (reply : Value) : Desk σ ω :=
  if d.gone then d else d.countCommand.send reply

/-- Has a batch carried out and writes the replies. -/
def runBatch (exec : Executor σ) (d : Desk σ ω) (batch : List (List Bytes)) : Desk σ ω :=
  if d.gone then d
  else
    let (replies, state) := exec.runAll batch d.state
    replies.foldl sendAnswer { d with state }

/-- Makes a move. -/
def perform (exec : Executor σ) (d : Desk σ ω) : Move → Desk σ ω
  | .run batch => d.runBatch exec batch
  | .send reply => d.send reply
  | .flush => d.flush

/-- Works on the entries in the queue. -/
def dispatch (exec : Executor σ) (d : Desk σ ω) (entries : List Entry) : Desk σ ω :=
  (Move.forQueue entries).foldl (perform exec) d

end Desk
end Keyspace
