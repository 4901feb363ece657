import CMinus.Token
import CMinus.AST
import CMinus.Parser
import CMinus.Grammar
import CMinus.Lexer
import CMinus.Lexer.Spelling
import CMinus.Lexer.Scan
import CMinus.Lexer.Print
import CMinus.Symbol
import CMinus.SemanticAnalyzer
import CMinus.Resolved
import CMinus.StaticRules
import CMinus.Analyzer.Judge
import CMinus.Analyzer.Expr
import CMinus.Analyzer.Stmt
import CMinus.Parser.Step
import CMinus.Parser.SoundExpr
import CMinus.Parser.SoundStmt
import CMinus.Parser.SoundDecl
import CMinus.Parser.CompleteExpr
import CMinus.Parser.CompleteStmt
import CMinus.Parser.Exact
import CMinus.Parser.Recovery
import CMinus.Parser.Calm
import CMinus.Parser.Blocks
import CMinus.Parser.Progress
import CMinus.Scoping
import CMinus.Parser.Raw
import CMinus.Analyzer.Scoping
import CMinus.Replaced
import CMinus.Analyzer.Blind
import CMinus.Analyzer.Cascade
import CMinus.Analyzer.OneError
import CMinus.Analyzer.Exact
import CMinus.SSA.Simulation
import CMinus.SSA.Emission
import CMinus.SSA.Invariant
import CMinus.IR
import CMinus.IRGen
import CMinus.IRGen.EmitExpr
import CMinus.IRGen.EmitStmt
import CMinus.IRGen.Prologue
import CMinus.IRGen.EmitProgram
import CMinus.Driver
import CMinus.IRGen.Subscripts
import CMinus.SSA.Reach
import CMinus.SSA.Live
import CMinus.SSA.System
import CMinus.MLIR
import CMinus.MLIRGen
import CMinus.MLIR.Structured
import CMinus.MLIRGen.Keeps
import CMinus.MLIRGen.Returns
import CMinus.MLIRGen.DefaultReturn
import CMinus.IRGen.Returns
import CMinus.IRGen.DefaultReturn
import CMinus.Analyzer.Returns
import CMinus.DefaultReturn
import CMinus.SSA.Closure
import CMinus.CMinusToCF
import CMinus.CMinusToCF.Formed
import CMinus.CMinusToCF.Patterns
import CMinus.CMinusToCF.Agreement
import CMinus.CMinusToCF.Simulation
import CMinus.CMinusToCF.Lowering
import CMinus.CMinusToCF.Correct
import CMinus.CMinusToCF.Conversion
import CMinus.CMinusToCF.Flat
import CMinus.Link
import CMinus.Diagnostic
import CMinus.Diagnostic.Position
import CMinus.Analyzer.Dump
import CMinus.SSA.Stack
import CMinus.IRGen.MainReturn
import CMinus.SSA.Settled
import CMinus.MLIRGen.Compose
import CMinus.MLIRGen.Blocks
import CMinus.MLIRGen.Lookup
import CMinus.MLIRGen.Resolution
import CMinus.SSA.Renaming
import CMinus.SSA.Pairing
import CMinus.IR.Same
import CMinus.IRGen.Paired
import CMinus.IRGen.PairedExpr
import CMinus.IRGen.PairedStmt
import CMinus.IRGen.PairedProgram
import CMinus.IRGen.PairedRun
import CMinus.IRGen.IndexChecks
import CMinus.Literals
import CMinus.Meaning
import CMinus.SSA.Transfer
import CMinus.IRGen.Represents
import CMinus.IRGen.FollowsStmt
import CMinus.IRGen.Realizes
import CMinus.IRGen.Defined
import CMinus.IRGen.Preserves
