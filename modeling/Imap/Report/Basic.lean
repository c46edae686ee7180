import Imap.Report.Detail
import Imap.Report.ErrorCode
import Imap.Response.Decode

/-!
# Error reports

An error report has a code, a message and, where a server caused the error, an excerpt of what it
sent. A failure of the decoder becomes a report whose message carries the details of the failure.
-/

namespace Imap

/-- An error as it is shown to people. -/
structure ErrorReport where
  code : ErrorCode
  message : Bytes
  serverResponse : Bytes
deriving DecidableEq, Repr

namespace ErrorReport

/-- The report of no error. -/
def noError : ErrorReport where
  code := .success
  message := []
  serverResponse := []

/-- The report of a code, with the name of the code as its message. -/
def ofCode (code : ErrorCode) : ErrorReport where
  code := code
  message := ascii code.name
  serverResponse := []

/-- Holds for the report of no error. -/
def isSuccess (report : ErrorReport) : Bool :=
  report.code == .success

/-- The report as one text: the code in brackets, the message, and what the server sent. -/
def text (report : ErrorReport) : Bytes :=
  ascii "[" ++ Decimal.digits report.code.number.toNat ++ ascii "] " ++ report.message ++
    if report.serverResponse = [] then [] else ascii ": " ++ report.serverResponse

/-- The text up to its first zero byte, as readers of zero-terminated text see it. -/
def terminatedText (report : ErrorReport) : Bytes :=
  report.text.takeWhile (· != Byte.nul)

end ErrorReport

namespace Failure

/-- The code of the report of a failure. -/
def errorCode : Failure → ErrorCode
  | incomplete _ => .incompleteResponse
  | malformed => .parseError

/-- The first line of the report of a failure. -/
def headline : Failure → Bytes
  | incomplete _ => ascii "Incomplete IMAP response"
  | malformed => ascii "Malformed IMAP response"

/-- The details of a failure on the given input. -/
def detail (failure : Failure) (input : Bytes) : Detail :=
  let opening := Detail.empty
    |>.add (ascii "proto") (ascii "imap")
    |>.add (ascii "decode.kind") (ascii failure.kindName)
    |>.addNumber (ascii "buffered.bytes") input.length
  let counted :=
    match failure.needed? with
    | some needed => opening.addNumber (ascii "needed.bytes") needed
    | none => opening
  counted.addExcerpt (ascii "input") Detail.excerptLimit input

/-- The length of the excerpt that a report shows of the server's bytes. -/
def responseLimit : Nat := 200

/-- The report of a failure on the given input. -/
def report (failure : Failure) (input : Bytes) : ErrorReport where
  code := failure.errorCode
  message := failure.headline ++ [Byte.lineFeed] ++ (failure.detail input).lines
  serverResponse := input.excerpt responseLimit

end Failure

/-- Decodes the response at the front of the input, or reports why it cannot. -/
def decodeOrReport (input : Bytes) : Except ErrorReport Decoded :=
  (decode input).mapError fun failure => failure.report input

end Imap
