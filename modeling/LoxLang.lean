import LoxLang.Binding.Basic
import LoxLang.Binding.Program
import LoxLang.CommandLine
import LoxLang.Diagnostic
import LoxLang.Eval.Access
import LoxLang.Eval.Basic
import LoxLang.Eval.Dialogue
import LoxLang.Eval.Native
import LoxLang.Eval.Operator
import LoxLang.Eval.Program
import LoxLang.Fault
import LoxLang.Main
import LoxLang.Number.Binary
import LoxLang.Number.Decimal
import LoxLang.Number.Text
import LoxLang.Proofs.Activations
import LoxLang.Proofs.Agreement
import LoxLang.Proofs.Atomicity
import LoxLang.Proofs.Binding
import LoxLang.Proofs.Births
import LoxLang.Proofs.Cells
import LoxLang.Proofs.Chains
import LoxLang.Proofs.Changes
import LoxLang.Proofs.Construction
import LoxLang.Proofs.Courses
import LoxLang.Proofs.Dialogue
import LoxLang.Proofs.Dispatch
import LoxLang.Proofs.Distances
import LoxLang.Proofs.Drift
import LoxLang.Proofs.Equality
import LoxLang.Proofs.Faithful
import LoxLang.Proofs.Fitting
import LoxLang.Proofs.Forms
import LoxLang.Proofs.Founding
import LoxLang.Proofs.Grammar
import LoxLang.Proofs.Identity
import LoxLang.Proofs.Joining
import LoxLang.Proofs.Jumps
import LoxLang.Proofs.Lasting
import LoxLang.Proofs.Lexical
import LoxLang.Proofs.LineNumbers
import LoxLang.Proofs.Lines
import LoxLang.Proofs.Links
import LoxLang.Proofs.Lockstep
import LoxLang.Proofs.LongestMatch
import LoxLang.Proofs.Lookahead
import LoxLang.Proofs.Markers
import LoxLang.Proofs.Marks
import LoxLang.Proofs.Naming
import LoxLang.Proofs.Nearest
import LoxLang.Proofs.Nesting
import LoxLang.Proofs.Numerals
import LoxLang.Proofs.Operations
import LoxLang.Proofs.Origins
import LoxLang.Proofs.Output
import LoxLang.Proofs.PairLists
import LoxLang.Proofs.PendingCalls
import LoxLang.Proofs.PrintedNumbers
import LoxLang.Proofs.Prompt
import LoxLang.Proofs.Quiet
import LoxLang.Proofs.ReadBack
import LoxLang.Proofs.Readability
import LoxLang.Proofs.Receivers
import LoxLang.Proofs.Recovery
import LoxLang.Proofs.Rejection
import LoxLang.Proofs.RenamedRuns
import LoxLang.Proofs.Renaming
import LoxLang.Proofs.Reports
import LoxLang.Proofs.Rescanning
import LoxLang.Proofs.Resuming
import LoxLang.Proofs.RoundTrip
import LoxLang.Proofs.Rounding
import LoxLang.Proofs.Rounds
import LoxLang.Proofs.Rules
import LoxLang.Proofs.Sessions
import LoxLang.Proofs.Shortest
import LoxLang.Proofs.SimulatedRuns
import LoxLang.Proofs.Simulation
import LoxLang.Proofs.Soundness
import LoxLang.Proofs.Spelling
import LoxLang.Proofs.Splitting
import LoxLang.Proofs.Streams
import LoxLang.Proofs.Texts
import LoxLang.Proofs.Tracking
import LoxLang.Proofs.Unmarking
import LoxLang.Proofs.Upkeep
import LoxLang.Proofs.Values
import LoxLang.Proofs.Visited
import LoxLang.Scoping.Basic
import LoxLang.Scoping.Frames
import LoxLang.Session
import LoxLang.Store.Arena
import LoxLang.Store.Basic
import LoxLang.Store.Containers
import LoxLang.Table
import LoxLang.Text.Blank
import LoxLang.Text.Digit
import LoxLang.Text.Lines
import LoxLang.Text.Printable
import LoxLang.Text.Quoted
import LoxLang.Token.Basic
import LoxLang.Token.Lexer
import LoxLang.Tree.Basic
import LoxLang.Tree.Form
import LoxLang.Tree.Marks
import LoxLang.Tree.Reading.Basic
import LoxLang.Tree.Reading.Expr
import LoxLang.Tree.Reading.Program
import LoxLang.Value.Basic
import LoxLang.Value.Display
import LoxLang.Value.Equality
import LoxLang.Value.Inspect
