import Imap.Bytes.Class

/-!
# Excerpts for people

Logs and error texts quote bytes that a server chose. An excerpt keeps the first bytes of the data,
shows a dot for each control byte that does not end a line, and marks a cut.
-/

namespace Imap

/-- A dot for a control byte other than the two line ends, and the byte itself otherwise. -/
def Byte.printable (byte : UInt8) : UInt8 :=
  if Byte.isControl byte && !Byte.isLineEnd byte then 46 else byte

namespace Bytes

/-- The mark at the end of an excerpt that does not hold all of its data. -/
def truncationMark : Bytes := ascii "... [truncated]"

/-- At most `limit` bytes of the data in printable form, with a mark if some are missing. -/
def excerpt (limit : Nat) (data : Bytes) : Bytes :=
  (data.take limit).map Byte.printable ++ if limit < data.length then truncationMark else []

end Bytes

end Imap
