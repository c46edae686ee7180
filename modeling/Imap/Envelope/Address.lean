import Imap.Rule.Repetition
import Imap.Token.ByteString

/-!
# Addresses

An address has four strings, each of which may be missing. A list of addresses is missing as a whole
or holds at least one address; its members follow each other without a separator.
-/

namespace Imap

/-- An address of a message. -/
structure Address where
  name : Option Bytes
  sourceRoute : Option Bytes
  mailbox : Option Bytes
  host : Option Bytes
deriving DecidableEq, Repr

/-- A list of addresses, or none at all. -/
abbrev AddressList := Option (List Address)

/-- An address in parentheses. -/
def Address.rule : Rule Address := do
  Rule.expect (ascii "(")
  let name ← NullableString.rule
  Rule.space
  let sourceRoute ← NullableString.rule
  Rule.space
  let mailbox ← NullableString.rule
  Rule.space
  let host ← NullableString.rule
  Rule.expect (ascii ")")
  pure { name := name, sourceRoute := sourceRoute, mailbox := mailbox, host := host }

/-- The written form of an address. -/
def Address.wire (address : Address) : Bytes :=
  ascii "(" ++
    Bytes.joined Byte.space
      [NullableString.wire address.name, NullableString.wire address.sourceRoute,
        NullableString.wire address.mailbox, NullableString.wire address.host] ++
    ascii ")"

namespace AddressList

/-- One or more addresses in parentheses. -/
def groupRule : Rule (List Address) := do
  Rule.expect (ascii "(")
  let addresses ← Rule.many Address.rule
  Rule.expect (ascii ")")
  pure addresses

/-- A missing list and a group. -/
def forms : List (Rule AddressList) :=
  [Rule.keyword NullableString.nil none, some <$> groupRule]

/-- A list of addresses that may be missing. -/
def rule : Rule AddressList :=
  Rule.firstOf forms

/-- The written form of a list of addresses. -/
def wire : AddressList → Bytes
  | none => NullableString.nil
  | some addresses => ascii "(" ++ addresses.flatMap Address.wire ++ ascii ")"

end AddressList

end Imap
