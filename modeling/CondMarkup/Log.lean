/-!
Log records: a level and a message each. Records are kept in the order in which they were made, and
those below a level can be left out when they are shown.
-/

namespace CondMarkup

inductive LogLevel where
  | debug
  | info
  | warning
  | error
  deriving DecidableEq, Repr

def LogLevel.name : LogLevel → String
  | debug => "DEBUG"
  | info => "INFO"
  | warning => "WARNING"
  | error => "ERROR"

/-- Levels in the order of their urgency. -/
def LogLevel.rank : LogLevel → Nat
  | debug => 0
  | info => 1
  | warning => 2
  | error => 3

structure LogRecord where
  level : LogLevel
  message : String
  deriving DecidableEq, Repr

/-- The line that shows a record. -/
def LogRecord.line (r : LogRecord) : String := s!"{r.level.name}: {r.message}"

/-- The records of a level or above. -/
def atLeast (level : LogLevel) (records : List LogRecord) : List LogRecord :=
  records.filter fun r => level.rank ≤ r.level.rank

end CondMarkup
