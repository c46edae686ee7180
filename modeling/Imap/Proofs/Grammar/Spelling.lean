import Imap.Proofs.Rule.Language
import Imap.Response.Basic

/-!
# The grammar of responses, as a set of spellings for each value

For every kind of value this module says which byte strings spell it. Nothing here knows how a rule
reads: a product of languages is concatenation, a sum is a choice without any order, and the zero
language has no words, so a value spelled by it cannot be written at all. Numbers and status words
have several spellings, strings have a quoted and a literal one, and everything else is spelled in
one way up to its parts.

Two places are read greedily, and there the grammar says what greed takes: a remark that starts
with a known code in brackets has that code, and a space after the bracket is no part of the text.
-/

namespace Imap

namespace Spelling

/-- The runs of digits with a given value, leading zeros included. -/
def numeral (number : Nat) : Language UInt8 :=
  wordsThat fun word =>
    word ≠ [] ∧ (∀ byte ∈ word, Byte.isDigit byte = true) ∧ Decimal.value word = number

end Spelling

open Spelling

/-! ## Tokens -/

/-- A non-empty run of atom bytes. -/
def Atom.IsAtom (name : Bytes) : Prop :=
  name ≠ [] ∧ ∀ byte ∈ name, Byte.isAtomChar byte = true

/-- An atom, with or without a backslash in front. -/
def Flag.IsFlag (flag : Bytes) : Prop :=
  Atom.IsAtom flag ∨ ∃ name, Atom.IsAtom name ∧ flag = Byte.backslash :: name

/-- A flag, or the wildcard that allows new keywords. -/
def Flag.IsPermanent (flag : Bytes) : Prop :=
  flag = ascii "\\*" ∨ Flag.IsFlag flag

def Flag.listSpelling : List Bytes → Language UInt8 :=
  parenthesized (asIs Flag.IsFlag)

namespace Quoted

/-- `Inner value word` says that the bytes of `word` between two quotes stand for `value`. A
backslash escapes a quote or a backslash and stands for itself before any other byte. -/
inductive Inner : Bytes → Bytes → Prop
  | nil : Inner [] []
  | plain {byte : UInt8} {value word : Bytes} :
      byte ≠ Byte.doubleQuote → byte ≠ Byte.backslash → Inner value word →
      Inner (byte :: value) (byte :: word)
  | escaped {byte : UInt8} {value word : Bytes} :
      byte = Byte.doubleQuote ∨ byte = Byte.backslash → Inner value word →
      Inner (byte :: value) (Byte.backslash :: byte :: word)
  | kept {byte : UInt8} {value word : Bytes} :
      byte ≠ Byte.doubleQuote → byte ≠ Byte.backslash → Inner value word →
      Inner (Byte.backslash :: byte :: value) (Byte.backslash :: byte :: word)

def spelling (value : Bytes) : Language UInt8 :=
  [literally "\"", wordsThat (Inner value), literally "\""].prod

end Quoted

/-- The length is announced as a number of 32 bits. -/
def Literal.spelling (value : Bytes) : Language UInt8 :=
  [literally "\x7b", numeral value.length, literally "\x7d\r\n",
    asIs (fun body => body.length < UInt32.size) value].prod

def ByteString.spelling (value : Bytes) : Language UInt8 :=
  Quoted.spelling value + Literal.spelling value

def NullableString.spelling : Option Bytes → Language UInt8
  | none => literally "NIL"
  | some value => ByteString.spelling value

/-! ## Fetched messages -/

def Address.spelling (address : Address) : Language UInt8 :=
  [literally "(", NullableString.spelling address.name, space,
    NullableString.spelling address.sourceRoute, space,
    NullableString.spelling address.mailbox, space,
    NullableString.spelling address.host, literally ")"].prod

def AddressList.spelling : AddressList → Language UInt8
  | none => literally "NIL"
  | some addresses => [literally "(", many Address.spelling addresses, literally ")"].prod

/-- The fields of an envelope and its closing parenthesis. -/
def Envelope.spelling (envelope : Envelope) : Language UInt8 :=
  [NullableString.spelling envelope.date, space,
    NullableString.spelling envelope.subject, space,
    AddressList.spelling envelope.sentFrom, space,
    AddressList.spelling envelope.sender, space,
    AddressList.spelling envelope.replyTo, space,
    AddressList.spelling envelope.sentTo, space,
    AddressList.spelling envelope.carbonCopy, space,
    AddressList.spelling envelope.blindCopy, space,
    NullableString.spelling envelope.inReplyTo, space,
    NullableString.spelling envelope.messageId, literally ")"].prod

namespace Attribute

def spelling : Attribute → Language UInt8
  | envelope value => literally "ENVELOPE (" * value.spelling
  | internalDate value => literally "INTERNALDATE " * ByteString.spelling value
  | flags value => literally "FLAGS " * Flag.listSpelling value
  | rfc822 value => literally "RFC822 " * NullableString.spelling value
  | rfc822Size value => literally "RFC822.SIZE " * numeral value.toNat
  | modSeq value => [literally "MODSEQ (", numeral value.toNat, literally ")"].prod
  | uid value => literally "UID " * numeral value.toNat

def listSpelling (attributes : List Attribute) : Language UInt8 :=
  [literally "(", spaced spelling attributes, literally ")"].prod

end Attribute

/-! ## Conditions -/

def Status.spelling (status : Status) : Language UInt8 :=
  wordsThat fun word => Bytes.lower word = Bytes.lower status.word

namespace ResponseCode

def wordsSpelling : ResponseCode → Language UInt8
  | permanentFlags flags =>
    literally "PERMANENTFLAGS " * parenthesized (asIs Flag.IsPermanent) flags
  | uidValidity value => literally "UIDVALIDITY " * numeral value.toNat
  | uidNext value => literally "UIDNEXT " * numeral value.toNat
  | highestModSeq value => literally "HIGHESTMODSEQ " * numeral value.toNat
  | readOnly => literally "READ-ONLY"
  | readWrite => literally "READ-WRITE"
  | tryCreate => literally "TRYCREATE"

def spelling (code : ResponseCode) : Language UInt8 :=
  [literally "[", code.wordsSpelling, literally "]"].prod

/-- Holds for a line that starts with a known code in brackets. -/
def Starts (line : Bytes) : Prop :=
  ∃ code, ∃ word ∈ spelling code, word <+: line

end ResponseCode

/-- A text is not empty and stays on its line; no text is spelled by no bytes. -/
def FreeText.spelling : Option Bytes → Language UInt8
  | none => 1
  | some text => asIs (fun text => text ≠ [] ∧ ∀ byte ∈ text, Byte.isLineEnd byte = false) text

/-- What stands behind a code: a space and the text, or the text at once if it starts with none. -/
def Remark.afterCodeSpelling (text : Option Bytes) : Language UInt8 :=
  space * FreeText.spelling text +
    wordsThat fun word => word ∈ FreeText.spelling text ∧ ¬ [Byte.space] <+: word

def Remark.spelling (remark : Remark) : Language UInt8 :=
  match remark.code with
  | none =>
    wordsThat fun word => word ∈ FreeText.spelling remark.text ∧ ¬ ResponseCode.Starts word
  | some code => code.spelling * Remark.afterCodeSpelling remark.text

def Condition.spelling (condition : Condition) : Language UInt8 :=
  [condition.status.spelling, space, condition.remark.spelling].prod

/-! ## Responses -/

def MailboxDatum.spelling : MailboxDatum → Language UInt8
  | .flags value => literally "FLAGS " * Flag.listSpelling value
  | .exists count => numeral count.toNat * literally " EXISTS"
  | .recent count => numeral count.toNat * literally " RECENT"

namespace Response

/-- A command tag is a non-empty run of tag bytes. -/
def IsTag (tag : Bytes) : Prop :=
  tag ≠ [] ∧ ∀ byte ∈ tag, Byte.isTagChar byte = true

instance (tag : Bytes) : Decidable (IsTag tag) :=
  inferInstanceAs (Decidable (tag ≠ [] ∧ ∀ byte ∈ tag, Byte.isTagChar byte = true))

/-- What stands between the star and the line end of an untagged response. -/
def untaggedSpelling : Response → Language UInt8
  | done _ _ => 0
  | data condition => condition.spelling
  | capabilities names => literally "CAPABILITY" * many (space * asIs Atom.IsAtom ·) names
  | mailbox datum => datum.spelling
  | fetch sequenceNumber attributes =>
    [numeral sequenceNumber.toNat, literally " FETCH ",
      Attribute.listSpelling attributes].prod
  | expunge sequenceNumber => numeral sequenceNumber.toNat * literally " EXPUNGE"

/-- The spellings of a whole response, with its line end. -/
def spelling : Response → Language UInt8
  | done tag condition =>
    [asIs IsTag tag, space, condition.spelling, literally "\r\n"].prod
  | response => [literally "* ", response.untaggedSpelling, literally "\r\n"].prod

end Response

end Imap
