import PineScript.Text.Quoted

/-!
# Failures

Why a rule, an analysis or a delivery failed, and the text that reports it.
-/

namespace PineScript

/-- The kinds of values without parts that a rule from outside may hand back. -/
inductive ScalarKind where
  | none | int | bool | float
deriving DecidableEq, Repr

def ScalarKind.name : ScalarKind → String
  | none => "NoneType"
  | int => "int"
  | bool => "bool"
  | float => "float"

/-- The kinds of values that it may hand back among others. -/
inductive ValueKind where
  | scalar (kind : ScalarKind)
  | text | list | table
deriving DecidableEq, Repr

def ValueKind.name : ValueKind → String
  | scalar kind => kind.name
  | text => "str"
  | list => "list"
  | table => "dict"

/-- A detail that a failure was raised with. -/
inductive Detail where
  | text (value : String)
  | number (spelling : String)
deriving DecidableEq, Repr

def Detail.plain : Detail → String
  | text s => s
  | number s => s

def Detail.quoted : Detail → String
  | text s => Text.quoted s
  | number s => s

/-- A failure of one part of a program, from which the others go on. -/
inductive Failure where
  /-- An error of this name was raised. It is an ordinary one: what is meant to end the whole
  program, such as an interrupt or an exit, is no failure. -/
  | raised (name : String) (details : List Detail)
  /-- A value came in place of a list. -/
  | notAList (kind : ScalarKind)
  /-- A list held something else than a diagnostic. -/
  | notADiagnostic (kind : ValueKind)
deriving DecidableEq, Repr

namespace Failure

def name : Failure → String
  | raised name _ => name
  | notAList _ | notADiagnostic _ => "TypeError"

/-- A single detail is shown plainly, except that a missing key is shown in quotes; several are
shown as a group. -/
def text : Failure → String
  | raised _ [] => ""
  | raised name [detail] => if name = "KeyError" then detail.quoted else detail.plain
  | raised _ details => "(" ++ ", ".intercalate (details.map Detail.quoted) ++ ")"
  | notAList kind =>
    let name := kind.name
    s!"'{name}' object is not iterable"
  | notADiagnostic kind =>
    let name := kind.name
    s!"returned {name}, expected Diagnostic"

/-- Name and text together. -/
def describe (failure : Failure) : String := failure.name ++ ": " ++ failure.text

end Failure

end PineScript
