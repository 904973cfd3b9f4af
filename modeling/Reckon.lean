import Reckon.Number.Ladder
import Reckon.Number.Shortest
import Reckon.Number.Text
import Reckon.Token
import Reckon.Diagnostic
import Reckon.Source.Segment
import Reckon.Source.Scan
import Reckon.Value
import Reckon.Expr
import Reckon.Expr.Print
import Reckon.Parse.Outcome
import Reckon.Parse.Expression
import Reckon.Parse.Program
import Reckon.Evaluation.Operator
import Reckon.Evaluation.Expression
import Reckon.Evaluation.Program
import Reckon.Event
import Reckon.Session
import Reckon.Text.Blank
import Reckon.Text.Terminal
import Reckon.CommandLine.Arguments
import Reckon.CommandLine.Response
import Reckon.CommandLine.Prompt
import Reckon.CommandLine.Run
import Reckon.Main
import Reckon.Proofs.Grammar
import Reckon.Proofs.Reading
import Reckon.Proofs.Recognition
import Reckon.Proofs.StatementReading
import Reckon.Proofs.Lookahead
import Reckon.Proofs.ErrorPosition
import Reckon.Proofs.Consumption
import Reckon.Proofs.Recovery
import Reckon.Proofs.Boundaries
import Reckon.Proofs.LostReport
import Reckon.Proofs.Pattern
import Reckon.Proofs.LongestMatch
import Reckon.Proofs.NumberText
import Reckon.Proofs.NumberBits
import Reckon.Proofs.NumberReading
import Reckon.Proofs.NearestNumber
import Reckon.Proofs.MaximalMunch
import Reckon.Proofs.Lines
import Reckon.Proofs.Renumbering
import Reckon.Proofs.LineJoin
import Reckon.Proofs.Concatenation
import Reckon.Proofs.Safety
import Reckon.Proofs.LineBlindness
import Reckon.Proofs.Spacing
import Reckon.Proofs.PrintStatement
import Reckon.Proofs.PrintedTree
import Reckon.Proofs.StatementGrammar
import Reckon.Proofs.Parenthesization
import Reckon.Proofs.BlamedTokens
import Reckon.Proofs.FailureShape
import Reckon.Proofs.RefusedOperators
import Reckon.Proofs.DiagnosticPlace
import Reckon.Proofs.StatementErrors
import Reckon.Proofs.Progress
import Reckon.Proofs.LiteralText
import Reckon.Proofs.PromptSession
import Reckon.Proofs.EvaluationOrder
import Reckon.Proofs.PrintedLines
import Reckon.Proofs.Reach
import Reckon.Proofs.Leftover
import Reckon.Proofs.PlusChain
import Reckon.Proofs.Regions
import Reckon.Proofs.StrayCharacters
