import Imap.Bytes.Basic

/-!
# Error codes

An error code is a number of 16 bits. A few numbers have names; any other number is a code as well.
The range of a code tells whether the network or the protocol failed.
-/

namespace Imap

/-- The number of an error. -/
structure ErrorCode where
  number : UInt16
deriving DecidableEq, Repr

namespace ErrorCode

def success : ErrorCode := ⟨0⟩
def connectionClosed : ErrorCode := ⟨101⟩
def connectionTimeout : ErrorCode := ⟨102⟩
def socketError : ErrorCode := ⟨106⟩
def parseError : ErrorCode := ⟨203⟩
def incompleteResponse : ErrorCode := ⟨208⟩
def messageTooLarge : ErrorCode := ⟨703⟩
def cancelled : ErrorCode := ⟨902⟩

/-- The codes with a name, in the order of their numbers. -/
def names : List (ErrorCode × String) :=
  [(success, "Success"), (connectionClosed, "Connection closed"),
    (connectionTimeout, "Connection timeout"), (socketError, "Socket error"),
    (parseError, "Parse error"), (incompleteResponse, "Incomplete response"),
    (messageTooLarge, "Message too large"), (cancelled, "Operation cancelled")]

/-- The name of a code. -/
def name (code : ErrorCode) : String :=
  (names.lookup code).getD "Unknown error"

/-- Codes from 100 to 199. -/
def isNetwork (code : ErrorCode) : Bool :=
  100 ≤ code.number && code.number < 200

/-- Codes from 200 to 699. -/
def isProtocol (code : ErrorCode) : Bool :=
  200 ≤ code.number && code.number < 700

end ErrorCode

end Imap
