import Imap.Log.Logger
import Imap.Report.Basic
import Imap.Stream.Session

/-!
# Transcripts

A transcript is everything that a server has sent. It is decoded response by response, and each
response is listed with its kind, its size and its written form. A transcript that holds only whole
responses ends with their number; any other is listed up to the failure, which goes to the log.
-/

namespace Imap.Transcript

/-- What listing a transcript gives: an exit code, the listing, and what was logged. -/
structure Listing where
  exitCode : UInt32
  output : Bytes
  logged : List Log.Emission
deriving DecidableEq, Repr

/-- The line of one response, which ends with the line end of its written form. -/
def responseLine (decoded : Decoded) : Bytes :=
  ascii decoded.response.kindName ++ ascii " (" ++ Decimal.digits decoded.consumed ++
    ascii " bytes): " ++ decoded.response.wire

/-- The last line of a complete listing. -/
def countLine (count : Nat) : Bytes :=
  Decimal.digits count ++ ascii " responses\n"

/-- The responses of a transcript. An empty transcript holds none. -/
def drainAll (input : Bytes) : Drained :=
  if input = [] then { decoded := [], failure? := none, buffer := [] } else drain input

/-- Lists a transcript. -/
def list (logger : Log.Logger) (input : Bytes) : Listing :=
  let drained := drainAll input
  let lines := drained.decoded.flatMap responseLine
  match drained.failure? with
  | none =>
    { exitCode := 0, output := lines ++ countLine drained.decoded.length, logged := [] }
  | some failure =>
    { exitCode := 1
      output := lines
      logged := logger.log .error (failure.report drained.buffer).text }

/-- The listing of a source that cannot be read. -/
def unreadable (logger : Log.Logger) (name : Bytes) : Listing where
  exitCode := 1
  output := []
  logged := logger.log .error (ascii "Cannot read " ++ name)

end Imap.Transcript
