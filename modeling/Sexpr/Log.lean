/-!
# The log

`Record` is a record of the log: its severity, the part of the program that speaks, and a text.
-/

namespace Sexpr

/-- How grave a record is. -/
inductive Severity where
  | debug
  | warning
  | error
  deriving DecidableEq

def Severity.name : Severity → String
  | debug => "DEBUG"
  | warning => "WARNING"
  | error => "ERROR"

/-- The part of the program that speaks. -/
inductive Speaker where
  | reader
  | session
  deriving DecidableEq

/-- A line of the log. -/
structure Record where
  severity : Severity
  speaker : Speaker
  text : String
  deriving DecidableEq

end Sexpr
