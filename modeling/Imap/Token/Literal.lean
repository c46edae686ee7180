import Imap.Token.Number

/-!
# Literals

A literal announces its length in braces, ends that line, and then holds exactly so many bytes of
any value. It is the one token that knows how many bytes are missing while it arrives.
-/

namespace Imap.Literal

/-- A literal; its value is the announced bytes. -/
def rule : Rule Bytes := do
  Rule.expect (ascii "\x7b")
  let length ← Number.rule
  Rule.expect (ascii "\x7d\r\n")
  Rule.exactly length.toNat

/-- The literal form of a value. -/
def wire (value : Bytes) : Bytes :=
  ascii "\x7b" ++ Decimal.digits value.length ++ ascii "\x7d\r\n" ++ value

end Imap.Literal
