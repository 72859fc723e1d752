/-
# Sessions

A session serves one client. The reader takes octets as they arrive, frames them and queues the
entries; whenever it has to wait, the dispatcher works on the queue. When the reader has ended, for
whatever reason, the dispatcher still answers all that is queued.

What a client brings is a `Connection`: the outlet to it, memory for what it sends, and what happens, which is a
list of `Happening`s: octets that arrive, time that passes, a connection that breaks, and pauses until the
client has got so many octets or has stopped taking them. Behind the last one the client closes its side.

The reader takes the octets that arrive in reads, each as large as the buffer has room, and tells which reads it
made.

Key definitions: `Session.run` runs a session on a server and gives the result, the reads, the goes of the
dispatcher, the octets that reached the client, and the server after it; `Session.runAll` runs sessions one after another. A `Visit` is the connection
of a client behind a pipe.
-/
import Keyspace.Session.Dispatch
import Keyspace.Session.Reading

namespace Keyspace

/-- What happens to a session from outside. -/
inductive Happening where
  /-- Octets arrive. -/
  | arrival (data : Bytes)
  /-- Time passes, in nanoseconds. -/
  | delay (nanos : Nat)
  /-- The client sends nothing before it has got `n` octets. -/
  | untilSent (n : Nat)
  /-- The client sends nothing before a write has failed. -/
  | untilFailed
  /-- Reading fails. -/
  | breakdown (cause : String)
  deriving DecidableEq, Repr

/-- What a client brings: a way to it on which nothing was written, memory that holds nothing, and what happens. -/
structure Connection (ω μ : Type) [Outlet ω] where
  outlet : ω
  memory : μ
  happenings : List Happening
  unused : Outlet.octets outlet = []

/-- What sessions share. -/
structure Server (σ : Type) where
  state : σ
  stats : Stats
  now : Instant

/-- A session at work. -/
structure Session (σ ω μ : Type) where
  desk : Desk σ ω
  now : Instant
  buffer : ReadBuffer μ
  /-- The entries that wait for the dispatcher. -/
  queue : List Entry
  /-- The goes of the dispatcher so far: when it was, and what it found in the queue. -/
  goes : List (Instant × List Entry)

namespace Session

/-- How many entries may wait in the queue. -/
def maxQueue : Nat := 1024

/-- What a stretch of the reader's work came to: the reads that it made, oldest first, why it ended, if it did, and
the session behind it. -/
structure Stretch (σ ω μ : Type) where
  reads : List Bytes
  result : Except SessionError Unit
  session : Session σ ω μ

/-- The stretch with reads made before it. -/
def Stretch.behind {σ ω μ : Type} (reads : List Bytes) (stretch : Stretch σ ω μ) : Stretch σ ω μ :=
  { stretch with reads := reads ++ stretch.reads }

section
variable {σ ω μ : Type}

/-- Whether the dispatcher has given up. -/
def gone (s : Session σ ω μ) : Bool := s.desk.gone

/-- A session that begins. -/
def start [Outlet ω] (server : Server σ) (connection : Connection ω μ) : Session σ ω μ where
  desk :=
    { state := server.state
      stats :=
        { server.stats with
          accepted := server.stats.accepted + 1
          active := server.stats.active + 1 }
      outlet := connection.outlet
      failure := none }
  now := server.now
  buffer := ⟨[], connection.memory⟩
  queue := []
  goes := []

end

variable {σ ω μ : Type} [Outlet ω]

/-- The dispatcher works on the queue. -/
def drain (exec : Instant → Executor σ) (s : Session σ ω μ) : Session σ ω μ :=
  { s with
    desk := s.desk.dispatch (exec s.now) s.queue
    queue := []
    goes := s.goes ++ [(s.now, s.queue)] }

/-- The session with a place in the queue, for which the dispatcher may have to work. -/
def withPlace (exec : Instant → Executor σ) (s : Session σ ω μ) : Session σ ω μ :=
  if s.queue.length < maxQueue then s else s.drain exec

/-- Queues entries. -/
def enqueue (exec : Instant → Executor σ) (s : Session σ ω μ) :
    List Entry → Except SessionError Unit × Session σ ω μ
  | [] => (.ok (), s)
  | e :: es =>
    let s := s.withPlace exec
    if s.gone then (.error .clientGone, s)
    else enqueue exec { s with queue := s.queue ++ [e] } es

variable [Memory μ]

/-- Frames what is in the buffer and queues the entries. The reply to a fatal fault is queued last,
if anyone is there to take it. -/
def frame (exec : Instant → Executor σ) (s : Session σ ω μ) : Except SessionError Unit × Session σ ω μ :=
  let f := Framing.frame s.buffer.pending
  let buffer := s.buffer.consume f.used
  match enqueue exec { s with buffer } f.entries with
  | (.error e, s) => (.error e, s)
  | (.ok (), s) =>
    match f.ending buffer.pending.length with
    | none => (.ok (), s)
    | some e =>
      let (_, s) := enqueue exec s (f.fatal.toList.map fun fault => .ready fault.reply)
      (.error e, s)

/-- Makes a read: its octets are counted and added to those that wait. -/
def read (s : Session σ ω μ) (data : Bytes) : Session σ ω μ :=
  { s with
    buffer := s.buffer.makeRoom.add data
    desk := { s.desk with stats := { s.desk.stats with read := s.desk.stats.read + data.length } } }

/-- Receives octets, in as many reads as the room in the buffer asks for. -/
def receive (exec : Instant → Executor σ) (s : Session σ ω μ) (data : Bytes) : Stretch σ ω μ :=
  if _h : data = [] then ⟨[], .ok (), s⟩
  else
    let n := s.buffer.makeRoom.room
    match (s.read (data.take n)).frame exec with
    | (.error e, t) => ⟨[data.take n], .error e, t⟩
    | (.ok (), t) => (receive exec t (data.drop n)).behind [data.take n]
termination_by data.length
decreasing_by
  have := List.length_pos_iff.2 _h
  have := s.buffer.room_makeRoom_pos
  simp only [List.length_drop]
  omega

/-- The reader's work until it ends, which it does on an error or when the client closes. -/
def play (exec : Instant → Executor σ) (s : Session σ ω μ) : List Happening → Stretch σ ω μ
  | [] => ⟨[], Framing.atEnd s.buffer.pending, s⟩
  | .arrival data :: rest =>
    match s.receive exec data with
    | ⟨reads, .error e, s⟩ => ⟨reads, .error e, s⟩
    | ⟨reads, .ok (), s⟩ => (play exec s rest).behind reads
  | .delay nanos :: rest => play exec { s with now := s.now + nanos } rest
  | .untilSent n :: rest =>
    play exec (if (Outlet.sent s.desk.outlet).length < n then s.drain exec else s) rest
  | .untilFailed :: rest => play exec (if s.gone then s else s.drain exec) rest
  | .breakdown cause :: _ => ⟨[], .error (.broken cause), s⟩

/-- The session once the reader has ended: the dispatcher works off the queue and flushes a last time. -/
def close (exec : Instant → Executor σ) (s : Session σ ω μ) : Session σ ω μ :=
  let s := s.drain exec
  { s with desk := s.desk.flush }

/-- The result of a session: why the reader ended, and if it ended well, whether all was written. -/
def result (read : Except SessionError Unit) (failure : Option String) : Except SessionError Unit :=
  match read, failure with
  | .error e, _ => .error e
  | .ok (), some cause => .error (.broken cause)
  | .ok (), none => .ok ()

/-- What a session leaves behind. -/
structure Outcome (σ : Type) where
  result : Except SessionError Unit
  /-- The reads that were made. -/
  reads : List Bytes
  /-- The goes that the dispatcher made. -/
  goes : List (Instant × List Entry)
  /-- Why a write or a flush has failed, if one has. -/
  failure : Option String
  /-- The octets that reached the client. -/
  output : Bytes
  server : Server σ

/-- All that was queued for the dispatcher, which has worked off the queue in its goes. -/
def Outcome.queued {σ : Type} (o : Outcome σ) : List Entry := o.goes.flatMap Prod.snd

/-- Runs a session. -/
def run (exec : Instant → Executor σ) (server : Server σ) (connection : Connection ω μ) : Outcome σ :=
  let stretch := (start server connection).play exec connection.happenings
  let s := stretch.session.close exec
  { result := result stretch.result s.desk.failure
    reads := stretch.reads
    goes := s.goes
    failure := s.desk.failure
    output := Outlet.sent s.desk.outlet
    server :=
      { state := s.desk.state
        stats := { s.desk.stats with active := s.desk.stats.active - 1 }
        now := s.now } }

/-- Runs sessions one after another on one server. -/
def runAll (exec : Instant → Executor σ) (server : Server σ) : List (Connection ω μ) → List (Outcome σ)
  | [] => []
  | connection :: connections =>
    let outcome := run exec server connection
    outcome :: runAll exec outcome.server connections

end Session

/-! ### Visits -/

/-- A client's visit: how many octets of replies it takes, if that is limited, and what happens. -/
structure Visit where
  limit : Option Nat
  happenings : List Happening
  deriving DecidableEq, Repr

/-- The connection of a visit. -/
def Visit.connection (visit : Visit) : Connection Pipe Places where
  outlet := Pipe.fresh visit.limit
  memory := Places.fresh
  happenings := visit.happenings
  unused := rfl

/-- Serves visits one after another on one server. -/
def Session.serveAll {σ : Type} (exec : Instant → Executor σ) (server : Server σ) (visits : List Visit) :
    List (Outcome σ) :=
  runAll exec server (visits.map Visit.connection)

end Keyspace
