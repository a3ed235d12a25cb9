import Fluxion.Builtin
import Fluxion.Bytecode.Basic
import Fluxion.Bytecode.Compile
import Fluxion.Bytecode.Machine
import Fluxion.Callable
import Fluxion.Decimal.Basic
import Fluxion.Decimal.Scaled
import Fluxion.Decimal.Shortest
import Fluxion.Decimal.Text
import Fluxion.Equation
import Fluxion.Error
import Fluxion.Expr.Basic
import Fluxion.Expr.Codec
import Fluxion.Expr.Eval
import Fluxion.Expr.Free
import Fluxion.Expr.Subst
import Fluxion.Expr.Text
import Fluxion.Generate
import Fluxion.Index
import Fluxion.Json.Basic
import Fluxion.Json.Codec
import Fluxion.Json.Parser
import Fluxion.Json.Printer
import Fluxion.Json.Token
import Fluxion.Layout.Params
import Fluxion.Layout.Relabel
import Fluxion.Layout.States
import Fluxion.Lowering
import Fluxion.Missing
import Fluxion.Node.Basic
import Fluxion.Node.Codec
import Fluxion.Node.Normal
import Fluxion.Node.Transform
import Fluxion.Occurrence
import Fluxion.Options
import Fluxion.Procedure.Basic
import Fluxion.Procedure.Canonical
import Fluxion.Procedure.Check
import Fluxion.Procedure.Codec
import Fluxion.Procedure.Source
import Fluxion.Procedure.Store
import Fluxion.Proofs.Expressions.Dependence
import Fluxion.Proofs.Expressions.Elimination
import Fluxion.Proofs.Expressions.Evaluation
import Fluxion.Proofs.Expressions.FoldedForms
import Fluxion.Proofs.Expressions.Folding
import Fluxion.Proofs.Expressions.Substitution
import Fluxion.Proofs.Generation.CheckedProcedures
import Fluxion.Proofs.Generation.Correctness
import Fluxion.Proofs.Generation.ExcludedTerms
import Fluxion.Proofs.Generation.Hygiene
import Fluxion.Proofs.Generation.IndexSafety
import Fluxion.Proofs.Generation.LoopSites
import Fluxion.Proofs.Generation.Refusals
import Fluxion.Proofs.Generation.Renaming
import Fluxion.Proofs.Generation.SafeLowering
import Fluxion.Proofs.Generation.ScalarSystems
import Fluxion.Proofs.Generation.SlotCoverage
import Fluxion.Proofs.Generation.Stages
import Fluxion.Proofs.Generation.Statements
import Fluxion.Proofs.Generation.SystemHistory
import Fluxion.Proofs.Generation.Tokens
import Fluxion.Proofs.Generation.UnknownSymbols
import Fluxion.Proofs.Generation.ZeroFolding
import Fluxion.Proofs.Layout.ParamBijection
import Fluxion.Proofs.Layout.ParamPlaces
import Fluxion.Proofs.Layout.Relabelling
import Fluxion.Proofs.Layout.ReportedLayout
import Fluxion.Proofs.Layout.Resolution
import Fluxion.Proofs.Layout.RuleTable
import Fluxion.Proofs.Layout.Subscripts
import Fluxion.Proofs.Lowering.ArrayBindings
import Fluxion.Proofs.Lowering.Fallible
import Fluxion.Proofs.Lowering.FreshNames
import Fluxion.Proofs.Lowering.IndexScopes
import Fluxion.Proofs.Lowering.Lowered
import Fluxion.Proofs.Lowering.LoweredDenotation
import Fluxion.Proofs.Lowering.LoweredValues
import Fluxion.Proofs.Lowering.NameCounts
import Fluxion.Proofs.Lowering.ScalarNodes
import Fluxion.Proofs.Lowering.Valuation
import Fluxion.Proofs.Machine.Batches
import Fluxion.Proofs.Machine.Implements
import Fluxion.Proofs.Machine.Lockstep
import Fluxion.Proofs.Machine.Materialization
import Fluxion.Proofs.Machine.Meaning
import Fluxion.Proofs.Machine.RealEmbedding
import Fluxion.Proofs.Machine.Refinement
import Fluxion.Proofs.Machine.Simulation
import Fluxion.Proofs.Machine.StackSafety
import Fluxion.Proofs.Machine.Steps
import Fluxion.Proofs.Machine.Termination
import Fluxion.Proofs.Machine.TotalCorrectness
import Fluxion.Proofs.Machine.WriteLog
import Fluxion.Proofs.Machine.WriteOnly
import Fluxion.Proofs.Nodes.Denotation
import Fluxion.Proofs.Nodes.InsideArrays
import Fluxion.Proofs.Nodes.Irreducible
import Fluxion.Proofs.Nodes.NormalForms
import Fluxion.Proofs.Nodes.PassValues
import Fluxion.Proofs.Nodes.SingleValue
import Fluxion.Proofs.Nodes.Traversal
import Fluxion.Proofs.Numbers.ExactArithmetic
import Fluxion.Proofs.Numbers.ExactIntegers
import Fluxion.Proofs.Numbers.FloatingIntegers
import Fluxion.Proofs.Storage.Decoding
import Fluxion.Proofs.Storage.Restorable
import Fluxion.Proofs.Storage.RoundTrip
import Fluxion.Scalar.Arithmetic
import Fluxion.Scalar.Complex
import Fluxion.Scalar.Floating
import Fluxion.Scalar.Literal
