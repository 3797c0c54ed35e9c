import PineScript.Rule

/-!
# Settings

Which rules run, and with which options. A rule runs if it is selected, or nothing is, and it is not
ignored.
-/

namespace PineScript

structure Settings where
  select : Option (List String) := none
  ignore : List String := []
  options : List (String × Options) := []
deriving DecidableEq, Repr

namespace Settings

def admits (settings : Settings) (id : String) : Bool :=
  settings.select.all (id ∈ ·) && id ∉ settings.ignore

/-- The options given for a rule. -/
def optionsFor (settings : Settings) (id : String) : Options :=
  (settings.options.lookup id).getD []

/-- The rules that run, in order. -/
def rules (settings : Settings) : List Rule :=
  (Rule.all.filter fun rule => settings.admits rule.id).map fun rule =>
    rule.configure (settings.optionsFor rule.id)

end Settings

end PineScript
