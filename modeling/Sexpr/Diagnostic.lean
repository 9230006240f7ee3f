import Sexpr.Log

/-!
# Diagnostics

What the reader notes about the structure of a text. A diagnostic never stops the reading.

* `Cause` is what was met, and `Diagnostic` a cause with its position.
* `Report` is the printed form of a diagnostic, and `Diagnostic.record` its record in the log.
-/

namespace Sexpr

/-- The kinds of diagnostics. -/
inductive Anomaly where
  | strayQuote
  | strayClose
  | unterminatedString
  | unterminatedList
  | nestingTooDeep
  deriving DecidableEq

namespace Anomaly

/-- The name of a kind in reports. -/
def label : Anomaly → String
  | strayQuote => "stray-quote"
  | strayClose => "stray-close"
  | unterminatedString => "unterminated-string"
  | unterminatedList => "unterminated-list"
  | nestingTooDeep => "nesting-too-deep"

/-- Whether the text ended before a form was complete. -/
def isTruncation : Anomaly → Bool
  | unterminatedString => true
  | unterminatedList => true
  | _ => false

/-- Truncations are for debugging only, the rest are warnings. -/
def severity (a : Anomaly) : Severity := if a.isTruncation then .debug else .warning

end Anomaly

/-- The printed form of a diagnostic. -/
structure Report where
  anomaly : Anomaly
  message : String
  position : Nat
  deriving DecidableEq

/-- A report on one line. -/
def Report.line (r : Report) : String :=
  r.anomaly.label ++ " at " ++ toString r.position ++ ": " ++ r.message

/-- What the reader met. -/
inductive Cause where
  /-- A double quote right behind the characters of a token. -/
  | strayQuote (token : String)
  /-- A closing parenthesis without an open list. -/
  | strayClose
  /-- The end of the text inside a string, of which `pending` is read. -/
  | unterminatedString (pending : String)
  /-- The end of the text inside the list that was opened at an offset. -/
  | unterminatedList (openedAt : Nat)
  /-- A list that lies deeper than the limit, which is given as it prints. -/
  | nestingTooDeep (limit : String)
  deriving DecidableEq

namespace Cause

def anomaly : Cause → Anomaly
  | strayQuote _ => .strayQuote
  | strayClose => .strayClose
  | unterminatedString _ => .unterminatedString
  | unterminatedList _ => .unterminatedList
  | nestingTooDeep _ => .nestingTooDeep

/-- The wording of the cause. -/
def message : Cause → String
  | strayQuote token => "`\"` after <" ++ token ++ "> dropped"
  | strayClose => "unmatched `)`, rest left unread"
  | unterminatedString pending => "string <" ++ pending ++ "> not closed"
  | unterminatedList openedAt => "list opened at " ++ toString openedAt ++ " not closed"
  | nestingTooDeep limit => "Nesting too deep: " ++ limit

end Cause

/-- A cause, and the offset that it is reported at. -/
structure Diagnostic where
  cause : Cause
  position : Nat
  deriving DecidableEq

namespace Diagnostic

/-- The printed form. -/
def report (d : Diagnostic) : Report := ⟨d.cause.anomaly, d.cause.message, d.position⟩

/-- Whether the text ended before a form was complete. -/
def isTruncation (d : Diagnostic) : Bool := d.cause.anomaly.isTruncation

/-- The line of the log for a diagnostic. -/
def record (d : Diagnostic) : Record := ⟨d.cause.anomaly.severity, .reader, d.report.line⟩

end Diagnostic

end Sexpr
