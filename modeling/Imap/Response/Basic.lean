import Imap.Condition.Basic
import Imap.Fetch.Attribute

/-!
# Responses

A server sends six kinds of responses. A done response ends a command and repeats its tag; the other
five start with a star. Here are their values, their names and their written forms.
-/

namespace Imap

/-- News about the selected mailbox. -/
inductive MailboxDatum where
  | flags (value : List Bytes)
  | exists (count : UInt32)
  | recent (count : UInt32)
deriving DecidableEq, Repr

/-- One response of a server. -/
inductive Response where
  | done (tag : Bytes) (condition : Condition)
  | data (condition : Condition)
  | capabilities (names : List Bytes)
  | mailbox (datum : MailboxDatum)
  | fetch (sequenceNumber : UInt32) (attributes : List Attribute)
  | expunge (sequenceNumber : UInt32)
deriving DecidableEq, Repr

/-- The written form of mailbox news. -/
def MailboxDatum.wire : MailboxDatum → Bytes
  | .flags value => ascii "FLAGS " ++ Flag.listWire value
  | .exists count => Decimal.digits count.toNat ++ ascii " EXISTS"
  | .recent count => Decimal.digits count.toNat ++ ascii " RECENT"

namespace Response

/-- The name of the kind of a response. -/
def kindName : Response → String
  | done _ _ => "done"
  | data _ => "data"
  | capabilities _ => "capabilities"
  | mailbox _ => "mailbox_data"
  | fetch _ _ => "fetch"
  | expunge _ => "expunge"

/-- The mark at the start of a response that belongs to no command. -/
def untaggedMark : Bytes := ascii "* "

/-- The written form of a response without its line end. -/
def line : Response → Bytes
  | done tag condition => tag ++ [Byte.space] ++ condition.wire
  | data condition => untaggedMark ++ condition.wire
  | capabilities names =>
    untaggedMark ++ ascii "CAPABILITY" ++ names.flatMap fun name => Byte.space :: name
  | mailbox datum => untaggedMark ++ datum.wire
  | fetch sequenceNumber attributes =>
    untaggedMark ++ Decimal.digits sequenceNumber.toNat ++ ascii " FETCH " ++
      Attribute.listWire attributes
  | expunge sequenceNumber =>
    untaggedMark ++ Decimal.digits sequenceNumber.toNat ++ ascii " EXPUNGE"

/-- The written form of a response. -/
def wire (response : Response) : Bytes :=
  response.line ++ Bytes.crlf

end Response

end Imap
