import PineScript.Schedule.Session

/-!
# Editors

An editor tells when a document is opened, changed or closed, and is notified of its diagnostics. An
empty notification takes them back.
-/

namespace PineScript.Editor

inductive Event where
  | opened (uri text : String)
  | changed (uri text : String)
  | closed (uri : String)
deriving DecidableEq, Repr

/-- A document that is opened or changed gets a new pass. -/
def Event.step : Event → Session.Step
  | opened uri text => .submit uri text .none
  | changed uri text => .submit uri text .none
  | closed uri => .close uri

/-- Editors number severities from the gravest. -/
def severityNumber : Severity → Nat
  | .error => 1
  | .warning => 2

/-- A diagnostic in the form that editors take. -/
structure Issue where
  range : Range
  message : String
  severity : Nat
  code : String
  source : String
deriving DecidableEq, Repr

def Issue.ofDiagnostic (d : Diagnostic) : Issue :=
  ⟨d.range, d.message, severityNumber d.severity, d.code, d.source⟩

structure Notification where
  uri : String
  issues : List Issue
deriving DecidableEq, Repr

def Notification.ofDelivery (d : Session.Delivery) : Notification :=
  ⟨d.uri, d.diagnostics.map Issue.ofDiagnostic⟩

end PineScript.Editor
