/-
# How due keys are found

A shard finds the keys whose deadline has been reached either by looking through all deadlines
(`linear`) or by keeping them in order of time beside the deadlines (`heap`).
-/

namespace Keyspace

/-- How a shard finds the keys that are due. -/
inductive Mode where
  | linear
  | heap
  deriving DecidableEq, Repr, Inhabited

/-- A text that names no mode, in lower case. -/
structure UnknownMode where
  text : String
  deriving DecidableEq, Repr

/-- The wording for a text that names no mode. -/
def UnknownMode.message (e : UnknownMode) : String :=
  "unknown expiry index '" ++ e.text ++ "', expected 'linear' or 'heap'"

namespace Mode

/-- All modes. -/
def all : List Mode := [.linear, .heap]

/-- The name of a mode. -/
def name : Mode → String
  | .linear => "linear"
  | .heap => "heap"

/-- The mode of a store for which none is chosen. -/
def standard : Mode := .linear

/-- A mode by its name, in any case of ASCII letters. -/
def parse (s : String) : Except UnknownMode Mode :=
  let text := s.map Char.toLower
  match all.find? (·.name == text) with
  | some mode => .ok mode
  | none => .error ⟨text⟩

end Mode
end Keyspace
