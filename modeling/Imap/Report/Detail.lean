import Imap.Bytes.Decimal
import Imap.Bytes.Excerpt

/-!
# Details of an error

The details of an error are lines of the form `key=value`. Bytes that a server chose enter only as
an excerpt with its line ends escaped, so that they cannot start a line of their own.
-/

namespace Imap

/-- The lines of details collected so far. -/
structure Detail where
  lines : Bytes
deriving DecidableEq, Repr

namespace Detail

/-- No lines. -/
def empty : Detail where
  lines := []

/-- Adds a line with the given value. -/
def add (detail : Detail) (key value : Bytes) : Detail where
  lines := detail.lines ++ key ++ ascii "=" ++ value ++ [Byte.lineFeed]

/-- Adds a line with a number. -/
def addNumber (detail : Detail) (key : Bytes) (number : Nat) : Detail :=
  detail.add key (Decimal.digits number)

/-- Two visible characters for a line end, and the byte itself otherwise. -/
def visible (byte : UInt8) : Bytes :=
  if byte = Byte.carriageReturn then ascii "\\r"
  else if byte = Byte.lineFeed then ascii "\\n"
  else [byte]

/-- The usual length of an excerpt. -/
def excerptLimit : Nat := 64

/-- Adds a line with an excerpt of the data. -/
def addExcerpt (detail : Detail) (key : Bytes) (limit : Nat) (data : Bytes) : Detail :=
  detail.add key ((data.excerpt limit).flatMap visible)

end Detail

end Imap
