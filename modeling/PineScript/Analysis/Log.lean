import PineScript.Analysis.Failure

/-!
# Log records
-/

namespace PineScript

inductive LogLevel where
  | debug | error
deriving DecidableEq, Repr

def LogLevel.name : LogLevel → String
  | debug => "DEBUG"
  | error => "ERROR"

/-- The part of the program that writes a record. -/
inductive LogSource where
  | engine | analyzer | scheduler
deriving DecidableEq, Repr

def LogSource.name : LogSource → String
  | engine => "pine_lint.engine"
  | analyzer => "pine_lint.analyzer"
  | scheduler => "pine_lint.scheduler"

structure LogRecord where
  level : LogLevel
  source : LogSource
  message : String
  failure : Option Failure := none
deriving DecidableEq, Repr

/-- The record on one line, without its failure. -/
def LogRecord.line (r : LogRecord) : String :=
  r.level.name ++ " " ++ r.source.name ++ ": " ++ r.message

end PineScript
