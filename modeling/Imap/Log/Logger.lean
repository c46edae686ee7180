import Imap.Log.Entry

/-!
# The logger

The logger holds a level, a switch for protocol traces and a sink. The level decides about regular
messages only, and the switch about traces only. Each operation gives the next logger and what it
emitted, so that a run of operations is a fold and nothing is printed here.
-/

namespace Imap.Log

/-- Where entries go: to the standard error stream or to a numbered handler. -/
inductive Sink where
  | standardError
  | handler (number : Nat)
deriving DecidableEq, Repr

/-- An entry and the sink it went to. -/
structure Emission where
  sink : Sink
  entry : Entry
deriving DecidableEq, Repr

/-- The settings of a logger. -/
structure Logger where
  level : Level
  tracing : Bool
  sink : Sink
deriving DecidableEq, Repr

/-- What can be asked of a logger. -/
inductive Operation where
  | setLevel (level : Level)
  | setTracing (enabled : Bool)
  | setHandler (number : Nat)
  | clearHandler
  | log (level : Level) (message : Bytes)
  | trace (payload : Trace)
deriving DecidableEq, Repr

namespace Logger

/-- A logger at level info, with traces off, that prints. -/
def initial : Logger where
  level := .info
  tracing := false
  sink := .standardError

/-- Holds for the levels that the logger lets through. -/
def isEnabled (logger : Logger) (level : Level) : Bool :=
  logger.level.number ≤ level.number

/-- The emission of an entry at the present sink. -/
def dispatch (logger : Logger) (entry : Entry) : List Emission :=
  [{ sink := logger.sink, entry := entry }]

/-- What a regular message emits. -/
def log (logger : Logger) (level : Level) (message : Bytes) : List Emission :=
  if logger.isEnabled level then
    logger.dispatch { level := level, message := message, trace? := none }
  else []

/-- What a protocol trace emits. Its entry has the lowest level and no message. -/
def trace (logger : Logger) (payload : Trace) : List Emission :=
  if logger.tracing then
    logger.dispatch { level := .trace, message := [], trace? := some payload }
  else []

/-- One operation: the next logger and what was emitted. -/
def step (logger : Logger) : Operation → Logger × List Emission
  | .setLevel level => ({ logger with level := level }, [])
  | .setTracing enabled => ({ logger with tracing := enabled }, [])
  | .setHandler number => ({ logger with sink := .handler number }, [])
  | .clearHandler => ({ logger with sink := .standardError }, [])
  | .log level message => (logger, logger.log level message)
  | .trace payload => (logger, logger.trace payload)

/-- A run of operations: the last logger and everything emitted, in order. -/
def run (logger : Logger) : List Operation → Logger × List Emission
  | [] => (logger, [])
  | operation :: operations =>
    let (next, emitted) := logger.step operation
    let (last, later) := next.run operations
    (last, emitted ++ later)

end Logger

end Imap.Log
