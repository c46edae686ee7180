import Imap.Rule.Token

/-!
# Status words

Every condition line starts with one of five words. They are read in any case and written in
capitals.
-/

namespace Imap

/-- How a command ended, or the state that a server announces. -/
inductive Status where
  | ok
  | no
  | bad
  | preauth
  | bye
deriving DecidableEq, Repr

namespace Status

/-- The word for a status. -/
def word : Status → Bytes
  | ok => ascii "OK"
  | no => ascii "NO"
  | bad => ascii "BAD"
  | preauth => ascii "PREAUTH"
  | bye => ascii "BYE"

/-- All statuses, in the order in which their words are tried. -/
def all : List Status :=
  [ok, no, bad, preauth, bye]

/-- The word of one status, in any case. -/
def wordRule (status : Status) : Rule Status := do
  let _ ← Rule.wordAnyCase status.word
  pure status

/-- The five status words. -/
def forms : List (Rule Status) :=
  all.map wordRule

/-- A status word in any case. -/
def rule : Rule Status :=
  Rule.firstOf forms

end Status

end Imap
