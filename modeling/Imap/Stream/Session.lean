import Imap.Response.Decode

/-!
# Sessions

A session holds the bytes that have arrived and not yet been decoded. Each decoded response takes
its bytes from the front, and a failure leaves the buffer as it was. Draining decodes until a
failure or until nothing is left, and it always decodes at least once; it ends because no response
is empty.
-/

namespace Imap

/-- What a buffer held: the responses decoded, the failure that ended it, and the bytes left. -/
structure Drained where
  decoded : List Decoded
  failure? : Option Failure
  buffer : Bytes
deriving DecidableEq, Repr

/-- Puts one more response in front of those already drained. -/
def Drained.cons (first : Decoded) (later : Drained) : Drained where
  decoded := first :: later.decoded
  failure? := later.failure?
  buffer := later.buffer

/-- Decodes responses from the front of the buffer until a failure or the end of the buffer. -/
def drain (buffer : Bytes) : Drained :=
  match _ : decode buffer with
  | .error failure => { decoded := [], failure? := some failure, buffer := buffer }
  | .ok first =>
    let rest := buffer.drop first.consumed
    if rest = [] then { decoded := [first], failure? := none, buffer := [] }
    else (drain rest).cons first
termination_by buffer.length
decreasing_by
  have := consumed_pos ‹_›
  have := consumed_le ‹_›
  simp only [List.length_drop]
  omega

/-- The bytes received and not yet decoded. -/
structure Session where
  buffer : Bytes
deriving DecidableEq, Repr

namespace Session

/-- A session before the first byte. -/
def empty : Session where
  buffer := []

/-- Adds received bytes at the end. -/
def feed (session : Session) (chunk : Bytes) : Session where
  buffer := session.buffer ++ chunk

/-- Erases at most `count` bytes at the front. -/
def drop (session : Session) (count : Nat) : Session where
  buffer := session.buffer.drop count

/-- Decodes once; a success erases the bytes it consumed. -/
def decodeOne (session : Session) : Except Failure Decoded × Session :=
  match decode session.buffer with
  | .ok decoded => (.ok decoded, session.drop decoded.consumed)
  | .error failure => (.error failure, session)

/-- Decodes all responses that have arrived; the results end with the failure, if there is one. -/
def decodeAll (session : Session) : List (Except Failure Decoded) × Session :=
  let drained := drain session.buffer
  (drained.decoded.map .ok ++ (drained.failure?.map .error).toList, { buffer := drained.buffer })

/-- Adds received bytes and gives the responses that they complete. -/
def receive (session : Session) (chunk : Bytes) : List Decoded × Session :=
  let drained := drain (session.feed chunk).buffer
  (drained.decoded, { buffer := drained.buffer })

/-- Receives the chunks one after the other and gives all responses they complete. -/
def receiveAll (session : Session) : List Bytes → List Decoded × Session
  | [] => ([], session)
  | chunk :: chunks =>
    let (decoded, next) := session.receive chunk
    let (later, last) := next.receiveAll chunks
    (decoded ++ later, last)

end Session

end Imap
