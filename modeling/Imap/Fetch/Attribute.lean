import Imap.Envelope.Basic
import Imap.Token.Flag

/-!
# Attributes of a fetched message

A server reports a message as a list of attributes. Each is a word in capitals and a value. A word
is matched together with the space or parenthesis after it, so no word is the beginning of another.
The internal date is a string that must be present.
-/

namespace Imap

/-- One attribute of a fetched message. -/
inductive Attribute where
  | envelope (value : Envelope)
  | internalDate (value : Bytes)
  | flags (value : List Bytes)
  | rfc822 (value : Option Bytes)
  | rfc822Size (value : UInt32)
  | modSeq (value : UInt64)
  | uid (value : UInt32)
deriving DecidableEq, Repr

namespace Attribute

def envelopeRule : Rule Attribute := do
  Rule.expect (ascii "ENVELOPE (")
  let value ← Envelope.fields
  pure (envelope value)

/-- The internal date. A missing string is malformed here. -/
def internalDateRule : Rule Attribute := do
  Rule.expect (ascii "INTERNALDATE ")
  let value ← NullableString.rule.accepting id
  pure (internalDate value)

def flagsRule : Rule Attribute := do
  Rule.expect (ascii "FLAGS ")
  let value ← Flag.listRule
  pure (flags value)

def modSeqRule : Rule Attribute := do
  Rule.expect (ascii "MODSEQ (")
  let value ← Number.wideRule
  Rule.expect (ascii ")")
  pure (modSeq value)

def rfc822Rule : Rule Attribute := do
  Rule.expect (ascii "RFC822 ")
  let value ← NullableString.rule
  pure (rfc822 value)

def rfc822SizeRule : Rule Attribute := do
  Rule.expect (ascii "RFC822.SIZE ")
  let value ← Number.rule
  pure (rfc822Size value)

def uidRule : Rule Attribute := do
  Rule.expect (ascii "UID ")
  let value ← Number.rule
  pure (uid value)

/-- The seven attributes, in the order in which they are tried. -/
def forms : List (Rule Attribute) :=
  [envelopeRule, internalDateRule, flagsRule, modSeqRule, rfc822Rule, rfc822SizeRule, uidRule]

/-- One attribute. -/
def rule : Rule Attribute :=
  Rule.firstOf forms

/-- One or more attributes in parentheses, with a space between neighbours. -/
def listRule : Rule (List Attribute) := do
  Rule.expect (ascii "(")
  let attributes ← Rule.spaced rule
  Rule.expect (ascii ")")
  pure attributes

/-- The written form of an attribute. -/
def wire : Attribute → Bytes
  | envelope value => ascii "ENVELOPE " ++ value.wire
  | internalDate value => ascii "INTERNALDATE " ++ ByteString.wire value
  | flags value => ascii "FLAGS " ++ Flag.listWire value
  | rfc822 value => ascii "RFC822 " ++ NullableString.wire value
  | rfc822Size value => ascii "RFC822.SIZE " ++ Decimal.digits value.toNat
  | modSeq value => ascii "MODSEQ (" ++ Decimal.digits value.toNat ++ ascii ")"
  | uid value => ascii "UID " ++ Decimal.digits value.toNat

/-- The written form of a list of attributes. -/
def listWire (attributes : List Attribute) : Bytes :=
  ascii "(" ++ Bytes.joined Byte.space (attributes.map wire) ++ ascii ")"

end Attribute

end Imap
