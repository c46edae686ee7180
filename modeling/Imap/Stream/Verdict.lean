import Imap.Response.Decode

/-!
# Verdicts while a response arrives

The verdict on a buffer says what the decoder answers without the value. The history of an input
lists the verdicts on all its initial segments, from the empty one to the whole, and names each
change by the length at which it happens.
-/

namespace Imap

/-- The decoder's answer without the value. -/
inductive Verdict where
  | decoded (kindName : String) (consumed : Nat)
  | failed (failure : Failure)
deriving DecidableEq, Repr

namespace Verdict

/-- The verdict that an answer of the decoder amounts to. -/
def ofResult : Except Failure Decoded → Verdict
  | .ok unit => .decoded unit.response.kindName unit.consumed
  | .error failure => .failed failure

/-- The verdict on a buffer. -/
def ofBuffer (buffer : Bytes) : Verdict :=
  ofResult (decode buffer)

/-- Drops each entry whose verdict repeats that of the entry before it, whatever has been dropped in
between; `previous?` is the verdict before the first entry. -/
def changes (previous? : Option Verdict) : List (Nat × Verdict) → List (Nat × Verdict)
  | [] => []
  | (length, verdict) :: later =>
    if previous? = some verdict then changes previous? later
    else (length, verdict) :: changes (some verdict) later

/-- The lengths at which the verdict on the initial segments of an input changes. -/
def history (input : Bytes) : List (Nat × Verdict) :=
  changes none <| (List.range (input.length + 1)).map fun length =>
    (length, ofBuffer (input.take length))

end Verdict

end Imap
