import Imap.Envelope.Address

/-!
# Envelopes

The envelope of a message repeats its header: two strings, six lists of addresses and two strings
again, in this order and with one space between neighbours.
-/

namespace Imap

/-- The header of a message as a server reports it. -/
structure Envelope where
  date : Option Bytes
  subject : Option Bytes
  sentFrom : AddressList
  sender : AddressList
  replyTo : AddressList
  sentTo : AddressList
  carbonCopy : AddressList
  blindCopy : AddressList
  inReplyTo : Option Bytes
  messageId : Option Bytes
deriving DecidableEq, Repr

namespace Envelope

/-- The fields of an envelope and its closing parenthesis; the opening one belongs to the word
before it. -/
def fields : Rule Envelope := do
  let date ← NullableString.rule
  Rule.space
  let subject ← NullableString.rule
  Rule.space
  let sentFrom ← AddressList.rule
  Rule.space
  let sender ← AddressList.rule
  Rule.space
  let replyTo ← AddressList.rule
  Rule.space
  let sentTo ← AddressList.rule
  Rule.space
  let carbonCopy ← AddressList.rule
  Rule.space
  let blindCopy ← AddressList.rule
  Rule.space
  let inReplyTo ← NullableString.rule
  Rule.space
  let messageId ← NullableString.rule
  Rule.expect (ascii ")")
  pure {
    date := date
    subject := subject
    sentFrom := sentFrom
    sender := sender
    replyTo := replyTo
    sentTo := sentTo
    carbonCopy := carbonCopy
    blindCopy := blindCopy
    inReplyTo := inReplyTo
    messageId := messageId }

/-- The written form of an envelope. -/
def wire (envelope : Envelope) : Bytes :=
  ascii "(" ++
    Bytes.joined Byte.space
      [NullableString.wire envelope.date, NullableString.wire envelope.subject,
        AddressList.wire envelope.sentFrom, AddressList.wire envelope.sender,
        AddressList.wire envelope.replyTo, AddressList.wire envelope.sentTo,
        AddressList.wire envelope.carbonCopy, AddressList.wire envelope.blindCopy,
        NullableString.wire envelope.inReplyTo, NullableString.wire envelope.messageId] ++
    ascii ")"

end Envelope

end Imap
