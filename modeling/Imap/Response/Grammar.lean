import Imap.Response.Basic
import Imap.Rule.Consuming

/-!
# The grammar of responses

A response is untagged or tagged, and both end with a line end. Every form of an untagged response
is tried from the byte after the star and its space. No match of a response is empty, so a stream of
responses can be read one after the other.
-/

namespace Imap

namespace MailboxDatum

def flagsRule : Rule MailboxDatum := do
  Rule.expect (ascii "FLAGS ")
  let value ← Flag.listRule
  pure (.flags value)

def existsRule : Rule MailboxDatum := do
  let count ← Number.rule
  Rule.expect (ascii " EXISTS")
  pure (.exists count)

def recentRule : Rule MailboxDatum := do
  let count ← Number.rule
  Rule.expect (ascii " RECENT")
  pure (.recent count)

/-- The three kinds of mailbox news. -/
def forms : List (Rule MailboxDatum) :=
  [flagsRule, existsRule, recentRule]

/-- News about the mailbox. -/
def rule : Rule MailboxDatum :=
  Rule.firstOf forms

end MailboxDatum

namespace Response

/-- The tag that a client gave to a command. -/
def tagRule : Rule Bytes :=
  Rule.bytesIn Byte.isTagChar

/-- The name of one capability with the space before it. -/
def capabilityNameRule : Rule Bytes := do
  Rule.space
  Atom.rule

def dataRule : Rule Response :=
  data <$> Condition.rule

def mailboxRule : Rule Response :=
  mailbox <$> MailboxDatum.rule

def expungeRule : Rule Response := do
  let sequenceNumber ← Number.rule
  Rule.expect (ascii " EXPUNGE")
  pure (expunge sequenceNumber)

def fetchRule : Rule Response := do
  let sequenceNumber ← Number.rule
  Rule.expect (ascii " FETCH ")
  let attributes ← Attribute.listRule
  pure (fetch sequenceNumber attributes)

def capabilitiesRule : Rule Response := do
  Rule.expect (ascii "CAPABILITY")
  let names ← Rule.many capabilityNameRule
  pure (capabilities names)

/-- The five forms of an untagged response. -/
def untaggedForms : List (Rule Response) :=
  [dataRule, mailboxRule, expungeRule, fetchRule, capabilitiesRule]

/-- A star, a space, one of the untagged forms and a line end. -/
def untaggedRule : Rule Response := do
  Rule.expect untaggedMark
  let response ← Rule.firstOf untaggedForms
  Rule.expect Bytes.crlf
  pure response

/-- A tag, a space, a condition and a line end. -/
def taggedRule : Rule Response := do
  let tag ← tagRule
  Rule.space
  let condition ← Condition.rule
  Rule.expect Bytes.crlf
  pure (done tag condition)

/-- The two forms of a response. -/
def forms : List (Rule Response) :=
  [untaggedRule, taggedRule]

/-- One response. -/
def rule : Rule Response :=
  Rule.firstOf forms

theorem consuming_forms : ∀ form ∈ forms, form.Consuming := by
  simp only [forms, List.forall_mem_cons]
  refine ⟨?_, ?_, List.forall_mem_nil _⟩
  · exact (Rule.consuming_expect (by decide)).bind _
  · exact (Rule.consuming_bytesIn _).bind _

theorem consuming_rule : rule.Consuming :=
  Rule.consuming_firstOf consuming_forms

end Response

end Imap
