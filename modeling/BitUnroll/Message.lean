/-!
# Messages

Messages have a level, and a log keeps those that are at least as severe as its verbosity asks.
-/

namespace BitUnroll

/-- How severe a message is, most severe first. -/
inductive Level where
  | error
  | warning
  | status
  | debug
  deriving DecidableEq, Repr

namespace Level

/-- The name of a level. -/
def name : Level → String
  | .error => "error"
  | .warning => "warning"
  | .status => "status"
  | .debug => "debug"

/-- The place of a level, from the most severe one on. -/
def rank : Level → Nat
  | .error => 0
  | .warning => 1
  | .status => 2
  | .debug => 3

end Level

/-- Messages in the order in which they came. -/
structure MessageLog where
  verbosity : Level := .debug
  messages : Array (Level × String) := #[]
  deriving DecidableEq, Repr

namespace MessageLog

/-- Keeps a message that is at least as severe as the verbosity. -/
def print (log : MessageLog) (level : Level) (text : String) : MessageLog :=
  if level.rank ≤ log.verbosity.rank then { log with messages := log.messages.push (level, text) }
  else log

/-- The texts of the errors. -/
def errors (log : MessageLog) : List String :=
  log.messages.toList.filterMap fun (level, text) => if level = .error then some text else none

/-- Errors are kept whatever the verbosity. -/
theorem errors_print_error (log : MessageLog) (text : String) :
    (log.print .error text).errors = log.errors ++ [text] := by
  simp [print, Level.rank, errors]

end MessageLog

end BitUnroll
