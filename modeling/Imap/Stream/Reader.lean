import Imap.Response.Decode

/-!
# Reading by hints

A reader that must not read past a response asks its source for as many bytes as the decoder says
are missing, and for one byte when the decoder cannot say. It stops at a response, at malformed
bytes, or when the source has given everything.
-/

namespace Imap

/-- One call of the decoder during a reading: the bytes buffered and the answer. -/
structure Attempt where
  buffered : Nat
  result : Except Failure Decoded

/-- How many bytes to ask for after an incomplete answer: the hint, and one byte without a hint. The
decoder never hints at zero bytes, so the maximum changes none of its requests. It says only that a
request makes progress, whatever the hint. -/
def Failure.request (failure : Failure) : Nat :=
  max 1 (failure.needed?.getD 1)

/-- The calls of the decoder from the time when `buffered` bytes of the source have been read. The
last call comes apart, so that there always is one. -/
def readFrom (source : Bytes) (buffered : Nat) : List Attempt × Attempt :=
  let result := decode (source.take buffered)
  let attempt := { buffered := buffered, result := result }
  match result with
  | .ok _ => ([], attempt)
  | .error .malformed => ([], attempt)
  | .error (.incomplete needed) =>
    if buffered < source.length then
      let next := min source.length (buffered + (Failure.incomplete needed).request)
      let (later, last) := readFrom source next
      (attempt :: later, last)
    else ([], attempt)
termination_by source.length - buffered
decreasing_by
  have : 1 ≤ (Failure.incomplete needed).request := Nat.le_max_left 1 _
  omega

/-- The calls of the decoder of a reading that starts with an empty buffer. -/
def readByHints (source : Bytes) : List Attempt × Attempt :=
  readFrom source 0

end Imap
