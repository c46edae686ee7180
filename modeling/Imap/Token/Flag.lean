import Imap.Bytes.Class
import Imap.Rule.Repetition

/-!
# Atoms, flags and free text

An atom is a run of atom bytes. A flag is an atom, with a backslash in front if the protocol defines
it. The list of permanent flags may also hold a backslash and a star, which allows new keywords.
Free text is whatever stands before the end of a line.
-/

namespace Imap

/-- An atom. -/
def Atom.rule : Rule Bytes :=
  Rule.bytesIn Byte.isAtomChar

/-- The bytes up to the end of the line, possibly none. -/
def FreeText.rule : Rule Bytes :=
  Rule.bytesBefore Byte.isLineEnd

namespace Flag

/-- A backslash and an atom; the backslash belongs to the value. -/
def extensionRule : Rule Bytes := do
  Rule.expect [Byte.backslash]
  let name ← Atom.rule
  pure (Byte.backslash :: name)

/-- The two forms of a flag. -/
def forms : List (Rule Bytes) :=
  [extensionRule, Atom.rule]

/-- A flag of a message or mailbox. -/
def rule : Rule Bytes :=
  Rule.firstOf forms

/-- The two forms of a permanent flag: the wildcard and a flag. -/
def permanentForms : List (Rule Bytes) :=
  [Rule.word (ascii "\\*"), rule]

/-- An entry of the list of permanent flags. -/
def permanentRule : Rule Bytes :=
  Rule.firstOf permanentForms

/-- A list of flags in parentheses, possibly empty. -/
def listRule : Rule (List Bytes) :=
  Rule.parenthesized rule

/-- The written form of a list of flags. -/
def listWire (flags : List Bytes) : Bytes :=
  ascii "(" ++ Bytes.joined Byte.space flags ++ ascii ")"

end Flag

end Imap
