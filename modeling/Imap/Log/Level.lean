import Imap.Bytes.Basic

/-!
# Log levels

A level is a number of eight bits, and levels are compared as numbers. Seven of them have names; the
last of these is above every level that a message should have, so it silences the log.
-/

namespace Imap.Log

/-- How severe a message is. -/
structure Level where
  number : UInt8
deriving DecidableEq, Repr

namespace Level

def trace : Level := ⟨0⟩
def debug : Level := ⟨1⟩
def info : Level := ⟨2⟩
def warn : Level := ⟨3⟩
def error : Level := ⟨4⟩
def fatal : Level := ⟨5⟩
def off : Level := ⟨6⟩

/-- The levels with a name. -/
def names : List (Level × String) :=
  [(trace, "TRACE"), (debug, "DEBUG"), (info, "INFO"), (warn, "WARN"), (error, "ERROR"),
    (fatal, "FATAL"), (off, "OFF")]

/-- The name of a level. -/
def name (level : Level) : String :=
  (names.lookup level).getD "UNKNOWN"

end Level

end Imap.Log
