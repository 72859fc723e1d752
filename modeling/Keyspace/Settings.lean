/-
# Settings

What the server announces, and where it listens when nothing else is chosen.
-/

namespace Keyspace
namespace Settings

/-- The version of the program. -/
def version : String := "0.1.0"

/-- The address to listen on. -/
def host : String := "127.0.0.1"

/-- The port to listen on. -/
def port : Nat := 6379

end Settings
end Keyspace
