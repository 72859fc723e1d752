/-
# Why a command fails

Each cause of failure, its wording, and the reply that it becomes.
-/
import Keyspace.Command.Basic
import Keyspace.Wire.Value

namespace Keyspace

/-- Why a request gets an error for a reply. -/
inductive CommandError where
  /-- The command does not take this number of arguments. -/
  | wrongArity (command : Command)
  /-- The options have no known form. -/
  | badOptions
  /-- The key holds the other kind of value. -/
  | wrongKind
  /-- An argument that should be an integer is none, or is out of range. -/
  | notAnInteger
  /-- The deadline is beyond the clock. -/
  | invalidExpireTime (command : Command)
  /-- No command has this name. -/
  | unknownCommand (name : String)
  /-- The request has no name. -/
  | emptyCommand
  /-- The command could not be carried out. -/
  | notExecuted
  deriving DecidableEq, Repr

namespace CommandError

/-- The wording of a failure. -/
def message : CommandError → String
  | wrongArity c => "ERR wrong number of arguments for '" ++ c.name ++ "' command"
  | badOptions => "ERR syntax error"
  | wrongKind => "WRONGTYPE Operation against a key holding the wrong kind of value"
  | notAnInteger => "ERR value is not an integer or out of range"
  | invalidExpireTime c => "ERR invalid expire time in '" ++ c.name ++ "' command"
  | unknownCommand name => "ERR unknown command '" ++ name ++ "'"
  | emptyCommand => "ERR empty command"
  | notExecuted => "ERR server error"

/-- The reply for a failure. -/
def toValue (e : CommandError) : Value := .error e.message

end CommandError
end Keyspace
