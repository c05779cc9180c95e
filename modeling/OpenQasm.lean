import OpenQasm.Command
import OpenQasm.Decimal.Binary64
import OpenQasm.Decimal.Fixed
import OpenQasm.Decimal.Numeral
import OpenQasm.Decimal.Shortest
import OpenQasm.Eval.Body
import OpenQasm.Eval.EvalError
import OpenQasm.Eval.Exec
import OpenQasm.Eval.GateCall
import OpenQasm.Eval.Interpreter
import OpenQasm.Eval.Machine
import OpenQasm.Eval.Modifiers
import OpenQasm.Eval.Snapshot
import OpenQasm.Folder
import OpenQasm.Json
import OpenQasm.Lexeme
import OpenQasm.Main
import OpenQasm.Parser.Expr
import OpenQasm.Parser.Program
import OpenQasm.Parser.Reply
import OpenQasm.Parser.Stmt
import OpenQasm.Quantum.Amplitude
import OpenQasm.Quantum.Backend
import OpenQasm.Quantum.BackendError
import OpenQasm.Quantum.Dimension
import OpenQasm.Quantum.Keystream
import OpenQasm.Quantum.ModularPower
import OpenQasm.Quantum.Operation
import OpenQasm.Quantum.Simulator
import OpenQasm.Quantum.StandardGate
import OpenQasm.Quantum.StateVector
import OpenQasm.Quantum.Unitary
import OpenQasm.Scalar
import OpenQasm.Scope.Assign
import OpenQasm.Scope.Scope
import OpenQasm.Scope.Table
import OpenQasm.Session
import OpenQasm.Source
import OpenQasm.Syntax.Block
import OpenQasm.Syntax.Expr
import OpenQasm.Syntax.Layout
import OpenQasm.Syntax.Stmt
import OpenQasm.Syntax.Tree
import OpenQasm.Syntax.Vocabulary
import OpenQasm.Text.Blank
import OpenQasm.Token
import OpenQasm.Token.Scan
import OpenQasm.Value.Const
import OpenQasm.Value.Value
import OpenQasm.Proofs.Lexing.Pieces
import OpenQasm.Proofs.Lexing.Trees
import OpenQasm.Proofs.Parsing.Replies
import OpenQasm.Proofs.Parsing.Soundness.Expr
import OpenQasm.Proofs.Parsing.Completeness.Expr
import OpenQasm.Proofs.Parsing.Completeness.Stmt
import OpenQasm.Proofs.Parsing.Soundness.Stmt
import OpenQasm.Proofs.RoundTrip
import OpenQasm.Proofs.Sequencing
import OpenQasm.Proofs.Trace.Recorder
import OpenQasm.Proofs.Trace.Forgetting
import OpenQasm.Proofs.Modifiers.Resolution
import OpenQasm.Proofs.Modifiers.Bodies
import OpenQasm.Proofs.Modifiers.GateScope
import OpenQasm.Proofs.Modifiers.Leaves
import OpenQasm.Proofs.Trace.Chains
import OpenQasm.Proofs.Trace.Invariant
import OpenQasm.Proofs.Controls
import OpenQasm.Proofs.Measurements
import OpenQasm.Proofs.Modifiers.Action
import OpenQasm.Proofs.Modifiers.Expansion
import OpenQasm.Proofs.Modifiers.Acceptance
import OpenQasm.Proofs.Trace.Written
import OpenQasm.Proofs.ModifiedCalls
import OpenQasm.Proofs.Quantum.Registers
import OpenQasm.Proofs.Quantum.Kernel
import OpenQasm.Proofs.Quantum.Matrices
import OpenQasm.Proofs.Quantum.Operations
import OpenQasm.Proofs.Quantum.Simulation
import OpenQasm.Proofs.Quantum.Exact
import OpenQasm.Proofs.Quantum.Statements
import OpenQasm.Proofs.Quantum.Runs
import OpenQasm.Proofs.Refusals
import OpenQasm.Proofs.Undoing
import OpenQasm.Proofs.Unrolling
import OpenQasm.Proofs.Inlining.Names
import OpenQasm.Proofs.Inlining.Alike
import OpenQasm.Proofs.Inlining.Scopes
import OpenQasm.Proofs.Inlining.Simulation
import OpenQasm.Proofs.Inlining.Actuals
import OpenQasm.Proofs.InlinedCalls
import OpenQasm.Proofs.Lockstep.Results
import OpenQasm.Proofs.Lockstep.Statements
import OpenQasm.Proofs.CallDepth
import OpenQasm.Proofs.ReachableStates
import OpenQasm.Proofs.Quantum.Weight
import OpenQasm.Proofs.Quantum.ModularPower
import OpenQasm.Proofs.Quantum.Requests
import OpenQasm.Proofs.Quantum.Fourier
import OpenQasm.Proofs.Normalization
import OpenQasm.Proofs.Lexing.Lines
import OpenQasm.Proofs.Parsing.Locality.Expr
import OpenQasm.Proofs.Parsing.Locality.Stmt
import OpenQasm.Proofs.Sessions.Chunks
import OpenQasm.Proofs.Sessions.Output
import OpenQasm.Proofs.Sessions
import OpenQasm.Proofs.Parsing.Parallel.Expr
import OpenQasm.Proofs.Parsing.Parallel.Stmt
import OpenQasm.Proofs.Parsing.Rounds
import OpenQasm.Proofs.Parsing.Outline
import OpenQasm.Proofs.Parsing.Keeping.Expr
import OpenQasm.Proofs.Parsing.Keeping.Stmt
import OpenQasm.Proofs.KeptTokens
import OpenQasm.Proofs.Lexing.Places
import OpenQasm.Proofs.ParsingProgress
import OpenQasm.Proofs.LocalErrors
import OpenQasm.Proofs.Scoping.Agreement
import OpenQasm.Proofs.Scoping.Bodies
import OpenQasm.Proofs.CallerLocals
import OpenQasm.Proofs.LosslessLexing
import OpenQasm.Proofs.ScopeUpdates
import OpenQasm.Proofs.Formed.Trees
import OpenQasm.Proofs.ParsedPrograms
import OpenQasm.Proofs.Renaming.Ends
import OpenQasm.Proofs.Renaming.Names
import OpenQasm.Proofs.Renaming.Scopes
import OpenQasm.Proofs.Renaming.Bodies
import OpenQasm.Proofs.RenamedFormals
import OpenQasm.Proofs.Renaming.Tables
import OpenQasm.Proofs.DeclaredTypes
import OpenQasm.Proofs.MeasuredBits
import OpenQasm.Proofs.PrintedExpressions
import OpenQasm.Proofs.OperatorTiers
import OpenQasm.Proofs.Lexing.Rules
import OpenQasm.Proofs.Lexing.Accepted
import OpenQasm.Proofs.MaximalMunch
import OpenQasm.Proofs.ExactFolding
import OpenQasm.Proofs.BitConversions
import OpenQasm.Proofs.BitAssignment
import OpenQasm.Proofs.FaithfulReading
import OpenQasm.Proofs.UnrollLimit
import OpenQasm.Proofs.PendingInput
import OpenQasm.Proofs.ExpressionReaders
import OpenQasm.Proofs.Quantum.MatrixPowers
import OpenQasm.Proofs.BlockTransforms
import OpenQasm.Proofs.SpacedTokens
import OpenQasm.Proofs.OrderedTables
