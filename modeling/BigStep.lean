import BigStep.CommandLine
import BigStep.DecodeError
import BigStep.Derivation
import BigStep.Evaluation
import BigStep.Evaluation.Context
import BigStep.Evaluation.Log
import BigStep.Evaluation.Run
import BigStep.Evaluation.Trace
import BigStep.Expr
import BigStep.Expr.Code
import BigStep.Expr.Parser
import BigStep.Goal
import BigStep.Integer
import BigStep.Main
import BigStep.Operator
import BigStep.ParseError
import BigStep.RuntimeError
import BigStep.Session
import BigStep.Text.Blank
import BigStep.Text.Decimal
import BigStep.Text.Delimited
import BigStep.Text.Hidden
import BigStep.Text.Layout
import BigStep.Text.Quoted
import BigStep.Token
import BigStep.Token.Lexer
import BigStep.Value
import BigStep.Value.Decode
import BigStep.Proofs.Derivation.Validity
import BigStep.Proofs.Evaluation.Agreement
import BigStep.Proofs.Expr.Grammar
import BigStep.Proofs.Expr.Parser
import BigStep.Proofs.Token.Spelling
import BigStep.Proofs.Expr.WellFormed
import BigStep.Proofs.Expr.RoundTrip
import BigStep.Proofs.Text.Delimited
import BigStep.Proofs.Value.WellFormed
import BigStep.Proofs.Value.RoundTrip
import BigStep.Proofs.Evaluation.WellFormed
import BigStep.Proofs.Goal.Replay
import BigStep.Proofs.Evaluation.Limit
import BigStep.Proofs.Expr.Productions
import BigStep.Proofs.Goal.Readback
import BigStep.Proofs.Expr.Balance
import BigStep.Proofs.Value.Format
import BigStep.Proofs.Evaluation.Context
import BigStep.Proofs.Evaluation.Log
import BigStep.Proofs.Session.Refinement
import BigStep.Proofs.Text.Words
import BigStep.Proofs.Value.Injective
import BigStep.Proofs.Derivation.Injective
import BigStep.Proofs.Evaluation.Derivable
import BigStep.Proofs.Evaluation.Scoping
import BigStep.Proofs.Expr.Parentheses
import BigStep.Proofs.Expr.Viable
import BigStep.Proofs.Expr.Diagnosis
import BigStep.Proofs.Expr.Tracking
import BigStep.Proofs.Expr.Nesting
import BigStep.Proofs.Token.Positions
import BigStep.Proofs.Expr.Offending
import BigStep.Proofs.Evaluation.Accounting
import BigStep.Proofs.Evaluation.Lookup
import BigStep.Proofs.Evaluation.Parametricity
import BigStep.Proofs.Evaluation.Provenance
import BigStep.Proofs.Evaluation.Exact
import BigStep.Proofs.Token.Munch
import BigStep.Proofs.Token.Spacing
import BigStep.Proofs.Expr.Layout
import BigStep.Proofs.Value.Functions
import BigStep.Proofs.Value.Names
import BigStep.Proofs.Derivation.Lines
import BigStep.Proofs.Text.Offsets
import BigStep.Proofs.Value.Spans
import BigStep.Proofs.Value.Parts
import BigStep.Derivation.Writer
import BigStep.Proofs.Derivation.Writer
import BigStep.Proofs.Evaluation.Counters
import BigStep.Proofs.Token.Longest
