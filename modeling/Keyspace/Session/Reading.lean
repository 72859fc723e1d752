/-
# Reading a stream

The reader's half of a session: octets go into the buffer as they are read, and all that can be
framed is framed before the next read. This module says what a read leads to and why reading ends,
apart from who carries the entries out.

Key definitions:
* `Framing.queued`, `Framing.ending`: what a framed buffer puts into the queue, and the error that
  ends reading, if there is one;
* `Framing.readAll`: the entries and the result of reads that follow one another up to the end of the stream,
  for a client that takes all its replies.
-/
import Keyspace.Session.Buffer
import Keyspace.Session.Framing

namespace Keyspace

/-- Why a session ends other than by the client closing between requests. -/
inductive SessionError where
  /-- Reading or writing failed. -/
  | broken (cause : String)
  /-- The stream cannot be framed any further. -/
  | unreadable (fault : Wire.Fault)
  /-- There was something to queue for a client that takes no more replies. -/
  | clientGone
  /-- The stream ended inside a request. -/
  | endInRequest
  /-- A request is larger than the buffer may get. -/
  | bufferFull
  deriving DecidableEq, Repr

/-- The wording of why a session ended. -/
def SessionError.message : SessionError → String
  | .broken cause => "I/O error: " ++ cause
  | .unreadable fault => "Parse error: " ++ fault.message
  | .clientGone => "Client disconnected"
  | .endInRequest => "Unexpected end of stream"
  | .bufferFull => "Buffer size limit exceeded"

namespace Framing

/-- The entries of a framed buffer; the reply to a fatal fault is the last. -/
def queued (f : Framing) : List Entry := f.entries ++ f.fatal.toList.map fun fault => .ready fault.reply

/-- The error that ends reading when `left` octets stay in the buffer. -/
def ending (f : Framing) (left : Nat) : Option SessionError :=
  match f.fatal with
  | some fault => some (.unreadable fault)
  | none => if ReadBuffer.limit ≤ left then some .bufferFull else none

/-- The octets of a buffer that are left when it is framed. -/
def left (buf : Bytes) : Bytes := buf.drop (frame buf).used

/-- The result when the stream ends with these octets left over. -/
def atEnd (pending : Bytes) : Except SessionError Unit :=
  if pending = [] then .ok () else .error .endInRequest

/-- The entries of reads that follow one another behind octets that wait, and how reading ends. -/
def readAll (pending : Bytes) : List Bytes → List Entry × Except SessionError Unit
  | [] => ([], atEnd pending)
  | data :: reads =>
    let buf := pending ++ data
    match (frame buf).ending (left buf).length with
    | some e => ((frame buf).queued, .error e)
    | none =>
      let (entries, result) := readAll (left buf) reads
      ((frame buf).queued ++ entries, result)

end Framing
end Keyspace
