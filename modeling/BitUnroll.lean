import BitUnroll.Expr.Meaning
import BitUnroll.Main
import BitUnroll.Proofs.Circuit.Netlist
import BitUnroll.Word.Lemmas
import BitUnroll.Proofs.Circuit.Growth
import BitUnroll.Proofs.Circuit.Denotation
import BitUnroll.Proofs.Circuit.Models
import BitUnroll.Proofs.Circuit.Session
import BitUnroll.Proofs.Circuit.Renaming
import BitUnroll.Proofs.Circuit.Optimisation
import BitUnroll.Proofs.Word.Bits
import BitUnroll.Proofs.Word.Circuits
import BitUnroll.Proofs.Lowering.Rules
import BitUnroll.Proofs.Lowering.Expressions
import BitUnroll.Proofs.Lowering.Requirements
import BitUnroll.Proofs.Script.Conditions
import BitUnroll.Proofs.Unroll.Allocation
import BitUnroll.Proofs.Unroll.Steps
import BitUnroll.Proofs.Unroll.Encoding
import BitUnroll.Proofs.SExpr.Comments
import BitUnroll.Proofs.Lowering.Binding
import BitUnroll.Proofs.Script.Scoping
import BitUnroll.Proofs.Unroll.Reach
import BitUnroll.Proofs.Unroll.Safety
import BitUnroll.Proofs.Lowering.Boolean
import BitUnroll.Proofs.Lowering.Transition
import BitUnroll.Proofs.Lowering.Refusal
import BitUnroll.Proofs.Unroll.Refusals
import BitUnroll.Proofs.Lowering.Delay
import BitUnroll.Proofs.Script.Modules
import BitUnroll.Proofs.Script.NamedTypes
import BitUnroll.Proofs.Logic.Dimacs
import BitUnroll.Proofs.Unroll.Report
import BitUnroll.Proofs.Word.Values
import BitUnroll.Proofs.Word.Resizing
import BitUnroll.Proofs.Lowering.Completion
import BitUnroll.Proofs.Script.Shapes
import BitUnroll.Proofs.Lowering.Assertion
import BitUnroll.Proofs.Lowering.Relations
import BitUnroll.Proofs.Lowering.Freshness
import BitUnroll.Proofs.Lowering.Repetition
import BitUnroll.Proofs.SExpr.RoundTrip
import BitUnroll.Proofs.SExpr.Balance
import BitUnroll.Proofs.Types.Chains
import BitUnroll.Proofs.Script.Declarations
import BitUnroll.Proofs.Script.NextValues
import BitUnroll.Proofs.SExpr.Quoting
import BitUnroll.Proofs.Symbols.Contents
import BitUnroll.Proofs.Unroll.Coverage
import BitUnroll.Proofs.Unroll.Verdict
