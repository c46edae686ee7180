import Imap.Bytes.Decimal
import Imap.Bytes.Excerpt
import Imap.Log.Level

/-!
# Log entries

A regular entry has a level and a message. A trace entry also holds bytes that went over the wire,
unmodified; only its printed line masks and cuts them.
-/

namespace Imap.Log

/-- Which way traced bytes went. -/
inductive Direction where
  | send
  | receive
deriving DecidableEq, Repr

/-- Bytes that went over the wire. -/
structure Trace where
  direction : Direction
  protocol : Bytes
  data : Bytes
deriving DecidableEq, Repr

/-- One entry of a log. -/
structure Entry where
  level : Level
  message : Bytes
  trace? : Option Trace
deriving DecidableEq, Repr

/-- The arrow between the protocol and the size of a traced payload. -/
def Direction.arrow : Direction → Bytes
  | .send => ascii " >>> ["
  | .receive => ascii " <<< ["

/-- The most bytes of a traced payload that are printed. -/
def payloadLimit : Nat := 500

/-- The bytes without the line ends at their end. -/
def trimLineEnds (bytes : Bytes) : Bytes :=
  (bytes.reverse.dropWhile Byte.isLineEnd).reverse

/-- The printed form of a trace: protocol, direction, size and a masked payload. -/
def Trace.line (trace : Trace) : Bytes :=
  trace.protocol ++ trace.direction.arrow ++ Decimal.digits trace.data.length ++
    ascii " bytes] " ++ trimLineEnds (trace.data.excerpt payloadLimit)

/-- The printed form of an entry, without a time and without a line end. -/
def Entry.line (entry : Entry) : Bytes :=
  match entry.trace? with
  | none => ascii "[" ++ ascii entry.level.name ++ ascii "] " ++ entry.message
  | some trace => trace.line

/-- The line that an entry takes on the standard error stream. -/
def Entry.printedLine (entry : Entry) : Bytes :=
  entry.line ++ [Byte.lineFeed]

end Imap.Log
