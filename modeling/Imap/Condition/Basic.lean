import Imap.Condition.ResponseCode
import Imap.Condition.Status

/-!
# Conditions

A condition is a status word, a space and a remark: an optional code in brackets and optional free
text. Servers end the line right after the bracket or put a space before the text, so one space is
dropped there. A bracket that holds no known code is text like any other. Text that comes out empty
counts as no text.
-/

namespace Imap

/-- What follows a status word. -/
structure Remark where
  code : Option ResponseCode
  text : Option Bytes
deriving DecidableEq, Repr

/-- A status with its remark. -/
structure Condition where
  status : Status
  remark : Remark
deriving DecidableEq, Repr

namespace Remark

/-- A known code in brackets with the space after it, or nothing. -/
def leadingCode : Rule (Option ResponseCode) :=
  Rule.orElse
    (do
      let code ← ResponseCode.rule
      Rule.skipOptional Byte.space
      pure (some code))
    (pure none)

/-- Text that holds at least one byte. -/
def presentText (text : Bytes) : Option Bytes :=
  if text = [] then none else some text

/-- A remark up to the end of its line, which stays unread. -/
def rule : Rule Remark := do
  let code ← leadingCode
  let text ← FreeText.rule
  pure { code := code, text := presentText text }

/-- The written form of a remark. A space separates a code from a text; a code without text ends
the remark. -/
def wire (remark : Remark) : Bytes :=
  match remark.code, remark.text with
  | none, none => []
  | none, some text => text
  | some code, none => code.wire
  | some code, some text => code.wire ++ [Byte.space] ++ text

end Remark

namespace Condition

/-- A status word, a space and a remark. -/
def rule : Rule Condition := do
  let status ← Status.rule
  Rule.space
  let remark ← Remark.rule
  pure { status := status, remark := remark }

/-- The written form of a condition. The space after the status stays even without a remark. -/
def wire (condition : Condition) : Bytes :=
  condition.status.word ++ [Byte.space] ++ condition.remark.wire

end Condition

end Imap
