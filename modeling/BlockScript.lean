import BlockScript.Main
import BlockScript.Program.PrefixForm
import BlockScript.Proofs.Grammar.Expressions
import BlockScript.Proofs.Grammar.Programs
import BlockScript.Proofs.Source.Lexemes
import BlockScript.Proofs.Source.Munch
import BlockScript.Proofs.Evaluation.BigStep
import BlockScript.Proofs.Evaluation.Simulation
import BlockScript.Proofs.Session.Calls
import BlockScript.Proofs.Evaluation.Relabeling
import BlockScript.Proofs.Source.Joining
import BlockScript.Proofs.Session.Pieces
import BlockScript.Proofs.Evaluation.Links
import BlockScript.Proofs.Session.Restoration
import BlockScript.Proofs.Session.Reports
import BlockScript.Proofs.CommandLine.ExitCodes
import BlockScript.Proofs.Source.Layout
import BlockScript.Proofs.Grammar.Moving
import BlockScript.Proofs.Grammar.Recovery
import BlockScript.Proofs.Session.Layout
import BlockScript.Proofs.Source.Spelling
import BlockScript.Proofs.Grammar.Vocabulary
import BlockScript.Proofs.Grammar.Relaxed
import BlockScript.Proofs.Grammar.Prediction
import BlockScript.Proofs.Grammar.EarliestError
import BlockScript.Proofs.Grammar.EndOfInput
import BlockScript.Proofs.Grammar.Blame
import BlockScript.Proofs.Grammar.LaterErrors
import BlockScript.Proofs.Grammar.Progress
import BlockScript.Proofs.Evaluation.Blame
import BlockScript.Proofs.Session.Blame
import BlockScript.Proofs.Evaluation.Agreement
import BlockScript.Proofs.Evaluation.Definedness
import BlockScript.Proofs.Session.Definedness
import BlockScript.Proofs.Evaluation.Effects
import BlockScript.Proofs.Evaluation.Printing
import BlockScript.Proofs.Evaluation.Sinks
import BlockScript.Proofs.Session.Effects
import BlockScript.Proofs.Session.Independence
import BlockScript.Proofs.CommandLine.Lines
import BlockScript.Proofs.Session.Numbering
import BlockScript.Proofs.CommandLine.Conversation
import BlockScript.Proofs.Scope.Arena
import BlockScript.Proofs.Scope.Histories
import BlockScript.Proofs.Scope.Writes
import BlockScript.Proofs.Scope.Brackets
import BlockScript.Proofs.Source.Lines
import BlockScript.Proofs.Source.Scanning
import BlockScript.Proofs.Source.Buffer
import BlockScript.Proofs.Grammar.Subexpressions
import BlockScript.Proofs.Evaluation.Grouping
import BlockScript.Proofs.Number.Magnitudes
import BlockScript.Proofs.Number.Rounding
import BlockScript.Proofs.Number.Floats
import BlockScript.Proofs.Number.Decimals
import BlockScript.Proofs.Source.Literals
import BlockScript.Proofs.Number.Shortest
import BlockScript.Proofs.Number.Text
import BlockScript.Proofs.Session.Numbers
import BlockScript.Proofs.Grammar.PrefixForm
import BlockScript.Proofs.Session.Expressions
