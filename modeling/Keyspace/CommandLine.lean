/-
# The command line

The options of the server: where to listen, how many shards and workers to use, how often to sweep,
and how due keys are found. Each is given as a name and a value; a later one overrides an earlier
one.
-/
import Keyspace.Settings
import Keyspace.Sweeper

namespace Keyspace

/-- What the server is told to use. -/
structure Options where
  host : String
  port : UInt16
  shards : Nat
  workers : Nat
  pace : Pace
  mode : Mode
  deriving DecidableEq, Repr

/-- Why a command line is refused. -/
inductive UsageError where
  | unknownOption (option : String)
  | missingValue (option : String)
  | badNumber (option value : String)
  | unknownMode (e : UnknownMode)
  deriving DecidableEq, Repr

/-- The wording of a refusal. -/
def UsageError.message : UsageError → String
  | .unknownOption option => "unexpected argument '" ++ option ++ "'"
  | .missingValue option => "a value is required for '" ++ option ++ "'"
  | .badNumber option value => "invalid value '" ++ value ++ "' for '" ++ option ++ "'"
  | .unknownMode e => e.message

namespace Options

/-- What is used where nothing is chosen. -/
def standard : Options where
  host := Settings.host
  port := Settings.port.toUInt16
  shards := Store.standardShards
  workers := 1
  pace := Pace.standard
  mode := Mode.standard

/-- A number up to `max` given as the value of an option. -/
def number (max : Nat) (option value : String) : Except UsageError Nat :=
  match value.toNat? with
  | some n => if n ≤ max then .ok n else .error (.badNumber option value)
  | none => .error (.badNumber option value)

/-- Sets one option. Shards, workers and milliseconds are at least one. -/
def set (o : Options) (option value : String) : Except UsageError Options :=
  let count := (max 1 ·) <$> number 0xffffffffffffffff option value
  match option with
  | "--host" => .ok { o with host := value }
  | "-p" | "--port" => do return { o with port := (← number 65535 option value).toUInt16 }
  | "--shards" => do return { o with shards := ← count }
  | "--workers" => do return { o with workers := ← count }
  | "--sweep-interval-ms" => do return { o with pace := { o.pace with interval := ← count } }
  | "--expiry-index" =>
    match Mode.parse value with
    | .ok mode => .ok { o with mode }
    | .error e => .error (.unknownMode e)
  | _ => .error (.unknownOption option)

/-- Sets options in order. -/
def parse (o : Options) : List String → Except UsageError Options
  | [] => .ok o
  | [option] => .error (.missingValue option)
  | option :: value :: rest => do (← o.set option value).parse rest

/-- What the server announces when it starts. -/
def announcement (o : Options) : String :=
  "keyspace " ++ Settings.version ++ ", an in-memory key-value server\n" ++
    "Listening on     " ++ o.host ++ ":" ++ toString o.port ++ "\n" ++
    "Shards           " ++ toString o.shards ++ "\n" ++
    "Workers          " ++ toString o.workers ++ "\n" ++
    "Expiry index     " ++ o.mode.name ++ "\n"

end Options
end Keyspace
