import PineScript.Editor
import PineScript.Main
import PineScript.Proofs.Analysis.BlankLine
import PineScript.Proofs.Analysis.Isolation
import PineScript.Proofs.Analysis.Located
import PineScript.Proofs.Analysis.Noqa
import PineScript.Proofs.Analysis.Selection
import PineScript.Proofs.CommandLine.Agreement
import PineScript.Proofs.Diagnostic.Directive
import PineScript.Proofs.Diagnostic.Presentation
import PineScript.Proofs.Diagnostic.Published
import PineScript.Proofs.Editor
import PineScript.Proofs.Grammar.Exact
import PineScript.Proofs.Grammar.OneLine
import PineScript.Proofs.Lexer.Breaks
import PineScript.Proofs.Lexer.Respaced
import PineScript.Proofs.Parser.Halting
import PineScript.Proofs.Parser.Indentation
import PineScript.Proofs.Parser.Nesting
import PineScript.Proofs.Parser.Progress
import PineScript.Proofs.Print.RoundTrip
import PineScript.Proofs.Rule.Continuation
import PineScript.Proofs.Rule.Headers
import PineScript.Proofs.Rule.Nesting
import PineScript.Proofs.Rule.Shadowing
import PineScript.Proofs.Rule.Unreachable
import PineScript.Proofs.Script.Search
import PineScript.Proofs.Session.Bookkeeping
import PineScript.Proofs.Settings.Loading
import PineScript.Proofs.Tree.Traversal
