/-
# The server

Listens for clients, serves each of them in a task of its own, and sweeps expired keys in the
background. The store and the counters are shared: whoever works on them holds the lock. The clock is
the machine's own, counted from the start of the program.
-/
import Keyspace.CommandLine
import Keyspace.Session.Run
import Std.Async.TCP
import Std.Async.Timer
import Std.Sync.Mutex

namespace Keyspace

open Std (Mutex)
open Std.Async (Async)
open Std.Async.TCP.Socket (Client)

/-- The clock's reading. -/
def readClock (origin : Nat) : IO Instant := return (← IO.monoNanosNow) - origin

/-- Takes the server as it is now, and leaves behind what a step makes of it. -/
def withServer {α : Type} (shared : Mutex (Server Store)) (step : Server Store → α × Server Store) :
    Async α :=
  shared.atomically do
    let (a, server) := step (← get)
    set server
    return a

/-- A session whose outlet gathers what is to be sent. -/
abbrev ServerSession := Session Store Pipe Places

/-- Takes in octets, or the end of the stream, and has all that they ask for answered. -/
def ServerSession.hear (s : ServerSession) : Option Bytes → Except SessionError Unit × ServerSession
  | some octets =>
    let stretch := s.receive Executor.ofStore octets
    match stretch.result with
    | .ok () => (.ok (), stretch.session.drain Executor.ofStore)
    | .error e => (.error e, stretch.session.close Executor.ofStore)
  | none =>
    let stretch := s.play Executor.ofStore []
    (stretch.result, stretch.session.close Executor.ofStore)

/-- Serves a client until its session ends. -/
partial def serveClient (shared : Mutex (Server Store)) (origin : Nat) (client : Client)
    (s : ServerSession) : Async Unit := do
  let data := (← client.recv? 4096).map ByteArray.toList
  let now ← readClock origin
  let (read, s) ← withServer shared fun server =>
    let desk := { s.desk with state := server.state, stats := server.stats }
    let (read, s) := ServerSession.hear { s with desk, now } data
    ((read, s), { server with state := s.desk.state, stats := s.desk.stats })
  if s.desk.outlet.sent ≠ [] then
    client.send s.desk.outlet.sent.toByteArray
  if data.isSome && read matches .ok () then
    let outlet := { s.desk.outlet with sent := [] }
    serveClient shared origin client { s with desk := { s.desk with outlet }, goes := [] }

/-- Serves a client and counts its session, however that ends. -/
def handleClient (shared : Mutex (Server Store)) (origin : Nat) (client : Client) : Async Unit := do
  let s ← withServer shared fun server =>
    let s : ServerSession := Session.start server (Visit.connection ⟨none, []⟩)
    (s, { server with stats := s.desk.stats })
  try
    client.noDelay
    serveClient shared origin client s
    client.shutdown
  catch e => IO.eprintln ("session ended: " ++ toString e)
  withServer shared fun server =>
    let stats := { server.stats with active := server.stats.active - 1 }
    ((), { server with stats })

/-- Sweeps the store again and again. -/
partial def sweepForever (shared : Mutex (Server Store)) (origin : Nat) (w : Sweeper) : Async Unit := do
  let now ← readClock origin
  let w ← withServer shared fun server =>
    let (w, state) := w.tick server.state now
    (w, { server with state })
  Std.Async.sleep (Std.Time.Millisecond.Offset.ofNat ((w.wake - now + Clock.milli - 1) / Clock.milli))
  sweepForever shared origin w

/-- Accepts clients again and again. -/
partial def acceptForever (shared : Mutex (Server Store)) (origin : Nat)
    (listener : Std.Async.TCP.Socket.Server) : Async Unit := do
  let client ← listener.accept
  Std.Async.background (handleClient shared origin client)
  acceptForever shared origin listener

/-- Runs the server. -/
def runServer (o : Options) : Async Unit := do
  let some addr := Std.Net.IPv4Addr.ofString o.host
    | throw (IO.userError ("invalid address '" ++ o.host ++ "'"))
  let listener ← Std.Async.TCP.Socket.Server.mk
  listener.bind (.v4 ⟨addr, o.port⟩)
  listener.listen 1024
  IO.println o.announcement
  (← IO.getStdout).flush
  let origin ← IO.monoNanosNow
  let shared ← Mutex.new
    { state := Store.empty o.shards o.mode, stats := Stats.zero, now := 0 : Server Store }
  Std.Async.background (sweepForever shared origin (Sweeper.start o.pace 0))
  acceptForever shared origin listener

end Keyspace

open Keyspace in
/-- Reads the options and runs the server. -/
def main (args : List String) : IO UInt32 := do
  match Options.standard.parse args with
  | .error e =>
    IO.eprintln ("error: " ++ e.message)
    return 2
  | .ok o =>
    (runServer o).block
    return 0
