import Pseudocode.Binding
import Pseudocode.CommandLine.Options
import Pseudocode.CommandLine.Run
import Pseudocode.Decimal.Double
import Pseudocode.Decimal.Layout
import Pseudocode.Decimal.Reading
import Pseudocode.Decimal.Shortest
import Pseudocode.Disk
import Pseudocode.Env
import Pseudocode.Eval.Basic
import Pseudocode.Eval.Event
import Pseudocode.Eval.Outcome
import Pseudocode.Eval.Step
import Pseudocode.Fault
import Pseudocode.Grammar.Basic
import Pseudocode.Grammar.Expression
import Pseudocode.Grammar.Statement
import Pseudocode.Interpreter
import Pseudocode.Literal
import Pseudocode.Main
import Pseudocode.Node.Basic
import Pseudocode.Node.Build
import Pseudocode.Node.Chain
import Pseudocode.Node.Compact
import Pseudocode.Node.Outline
import Pseudocode.Node.Search
import Pseudocode.Operator
import Pseudocode.ParseError.Basic
import Pseudocode.ParseError.Excerpt
import Pseudocode.ParseError.Hint
import Pseudocode.ParseError.Place
import Pseudocode.Program.Basic
import Pseudocode.Program.Parse
import Pseudocode.Program.Read
import Pseudocode.Proofs.Acts.Basic
import Pseudocode.Proofs.Acts.Rules
import Pseudocode.Proofs.Arguments
import Pseudocode.Proofs.Blocks
import Pseudocode.Proofs.Brackets.Basic
import Pseudocode.Proofs.Brackets.Rules
import Pseudocode.Proofs.Brackets.Run
import Pseudocode.Proofs.CallProtocol
import Pseudocode.Proofs.Compact.Notation
import Pseudocode.Proofs.Compact.Unambiguous
import Pseudocode.Proofs.Compact.Words
import Pseudocode.Proofs.Concatenation
import Pseudocode.Proofs.Contract.Basic
import Pseudocode.Proofs.Contract.Rules
import Pseudocode.Proofs.Contract.Run
import Pseudocode.Proofs.DepthLimit
import Pseudocode.Proofs.EntryPoints
import Pseudocode.Proofs.ErrorFree
import Pseudocode.Proofs.ErrorPosition
import Pseudocode.Proofs.ErrorReport
import Pseudocode.Proofs.Exhaustion
import Pseudocode.Proofs.FirstError
import Pseudocode.Proofs.FrontEnds
import Pseudocode.Proofs.Layout
import Pseudocode.Proofs.Levels
import Pseudocode.Proofs.LoopFree
import Pseudocode.Proofs.LoopLaws
import Pseudocode.Proofs.Moments
import Pseudocode.Proofs.Names
import Pseudocode.Proofs.Outline.Faithful
import Pseudocode.Proofs.Outline.Traversals
import Pseudocode.Proofs.ParsedRuns
import Pseudocode.Proofs.Parsing.Progress
import Pseudocode.Proofs.Places
import Pseudocode.Proofs.Printing
import Pseudocode.Proofs.ReadBack
import Pseudocode.Proofs.ReadLoopHistory
import Pseudocode.Proofs.RefusedAssignment
import Pseudocode.Proofs.RoundTrip
import Pseudocode.Proofs.ScriptReport
import Pseudocode.Proofs.SlotTable
import Pseudocode.Proofs.TokenRow
import Pseudocode.Proofs.TracedRuns
import Pseudocode.Proofs.Tracing
import Pseudocode.Proofs.Truncation
import Pseudocode.Proofs.Unmentioned.Basic
import Pseudocode.Proofs.Unmentioned.Rules
import Pseudocode.Proofs.Unmentioned.Run
import Pseudocode.Proofs.WriteSet
import Pseudocode.ReadLoop
import Pseudocode.Script
import Pseudocode.Summary
import Pseudocode.Text.Digit
import Pseudocode.Text.Line
import Pseudocode.Text.Printable
import Pseudocode.Text.Quoted
import Pseudocode.Text.Ranges
import Pseudocode.Text.Space
import Pseudocode.Text.Tab
import Pseudocode.Text.Utf8
import Pseudocode.Text.Word
import Pseudocode.Token.Basic
import Pseudocode.Token.Scan
import Pseudocode.Value
