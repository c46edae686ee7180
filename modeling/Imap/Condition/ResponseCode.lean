import Imap.Token.Flag
import Imap.Token.Number

/-!
# Response codes

A condition line may carry a machine-readable code in brackets before its text. Seven codes are
known. Their words are read and written in capitals.
-/

namespace Imap

/-- A code that a server puts into brackets. -/
inductive ResponseCode where
  | permanentFlags (flags : List Bytes)
  | uidValidity (value : UInt32)
  | uidNext (value : UInt32)
  | highestModSeq (value : UInt64)
  | readOnly
  | readWrite
  | tryCreate
deriving DecidableEq, Repr

namespace ResponseCode

def permanentFlagsRule : Rule ResponseCode := do
  Rule.expect (ascii "PERMANENTFLAGS ")
  let flags ← Rule.parenthesized Flag.permanentRule
  pure (permanentFlags flags)

def uidValidityRule : Rule ResponseCode := do
  Rule.expect (ascii "UIDVALIDITY ")
  let value ← Number.rule
  pure (uidValidity value)

def uidNextRule : Rule ResponseCode := do
  Rule.expect (ascii "UIDNEXT ")
  let value ← Number.rule
  pure (uidNext value)

def highestModSeqRule : Rule ResponseCode := do
  Rule.expect (ascii "HIGHESTMODSEQ ")
  let value ← Number.wideRule
  pure (highestModSeq value)

def readOnlyRule : Rule ResponseCode :=
  Rule.keyword (ascii "READ-ONLY") readOnly

def readWriteRule : Rule ResponseCode :=
  Rule.keyword (ascii "READ-WRITE") readWrite

def tryCreateRule : Rule ResponseCode :=
  Rule.keyword (ascii "TRYCREATE") tryCreate

/-- The seven codes, in the order in which they are tried. -/
def forms : List (Rule ResponseCode) :=
  [permanentFlagsRule, uidValidityRule, uidNextRule, readOnlyRule, readWriteRule, tryCreateRule,
    highestModSeqRule]

/-- A code in brackets. What follows the closing bracket is left unread. -/
def rule : Rule ResponseCode := do
  Rule.expect (ascii "[")
  let code ← Rule.firstOf forms
  Rule.expect (ascii "]")
  pure code

/-- The written form of a code without its brackets. -/
def words : ResponseCode → Bytes
  | permanentFlags flags => ascii "PERMANENTFLAGS " ++ Flag.listWire flags
  | uidValidity value => ascii "UIDVALIDITY " ++ Decimal.digits value.toNat
  | uidNext value => ascii "UIDNEXT " ++ Decimal.digits value.toNat
  | highestModSeq value => ascii "HIGHESTMODSEQ " ++ Decimal.digits value.toNat
  | readOnly => ascii "READ-ONLY"
  | readWrite => ascii "READ-WRITE"
  | tryCreate => ascii "TRYCREATE"

/-- The written form of a code. -/
def wire (code : ResponseCode) : Bytes :=
  ascii "[" ++ code.words ++ ascii "]"

end ResponseCode

end Imap
