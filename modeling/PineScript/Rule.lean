import PineScript.Rule.ConstantCondition
import PineScript.Rule.Continuation
import PineScript.Rule.Nesting
import PineScript.Rule.Shadowing
import PineScript.Rule.Unreachable
import PineScript.Sorted

/-!
# Rules

The five rules with their settings. A rule is a value: to configure it is to make another one.
-/

namespace PineScript

/-- A value that an option of a rule may have. -/
inductive OptionValue where
  | int (value : Int)
  | bool (value : Bool)
  | text (value : String)
  | texts (values : List String)
  /-- A value of no type that a rule takes. -/
  | other
deriving DecidableEq, Repr

abbrev Options := List (String × OptionValue)

inductive Rule where
  | continuation (minIndent : Int)
  | shadowing
  | constantCondition
  | unreachable (terminators : List String)
  | nesting (maxDepth : Int)
deriving DecidableEq, Repr

namespace Rule

def id : Rule → String
  | continuation _ => Continuation.id
  | shadowing => Shadowing.id
  | constantCondition => ConstantCondition.id
  | unreachable _ => Unreachable.id
  | nesting _ => Nesting.id

/-- All rules with their default settings, in the order in which they run. -/
def all : List Rule :=
  [continuation 1, shadowing, constantCondition,
    unreachable (sortedTexts (JumpKind.all.map JumpKind.text)), nesting 4]

def ofId? (text : String) : Option Rule := all.find? (·.id == text)

def check (rule : Rule) (program : Program) (tokens : List Token) : List Diagnostic :=
  match rule with
  | continuation minIndent => Continuation.check minIndent program tokens
  | shadowing => Shadowing.check program
  | constantCondition => ConstantCondition.check program
  | unreachable terminators => Unreachable.check terminators program tokens
  | nesting maxDepth => Nesting.check maxDepth program

/-- An option that has to be an integer; without it the present value stays. -/
def intOption? (options : Options) (name : String) (present : Int) : Option Int :=
  match options.lookup name with
  | none => some present
  | some (.int value) => some value
  | some _ => none

/-- The rule that the options ask for, or nothing if they do not fit the rule. -/
def configured? (rule : Rule) (options : Options) : Option Rule :=
  match rule with
  | continuation present => continuation <$> intOption? options "min_indent" present
  | nesting present => nesting <$> intOption? options "max_depth" present
  | unreachable _ =>
    match options.lookup "terminators" with
    | some (.texts values) => some (unreachable (sortedTexts values))
    | _ => none
  | shadowing | constantCondition => none

def configure (rule : Rule) (options : Options) : Rule := (rule.configured? options).getD rule

end Rule

end PineScript
