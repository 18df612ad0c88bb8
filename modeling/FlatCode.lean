import FlatCode.Main
import FlatCode.Token.Source
import FlatCode.Proofs.Flow
import FlatCode.Proofs.Simulation.Program
import FlatCode.Proofs.Tree.Call
import FlatCode.Proofs.Grammar.Accepted
import FlatCode.Proofs.Truth.Program
import FlatCode.Proofs.Lockstep.Expr
import FlatCode.Proofs.Token.Queue
import FlatCode.Proofs.Lockstep.Program
import FlatCode.Proofs.Lockstep.BrokenLine
import FlatCode.Proofs.Lockstep.Layout
import FlatCode.Proofs.Text.Line
import FlatCode.Proofs.Encoding.Instruction
import FlatCode.Proofs.Encoding.Listing
import FlatCode.Proofs.Truth.Strict
import FlatCode.Proofs.Grammar.Precedence
import FlatCode.Proofs.Recognition.Derived
import FlatCode.Proofs.Token.Partition
import FlatCode.Proofs.Recognition.Rebuilt
import FlatCode.Proofs.Recognition.TrackedExpr
import FlatCode.Proofs.Recognition.TrackedProgram
import FlatCode.Proofs.Lowering.Domain
import FlatCode.Proofs.Access.Timeline
import FlatCode.Proofs.Access.Convention
import FlatCode.Proofs.Evaluation.Operand
import FlatCode.Proofs.Truth.UnaryRun
import FlatCode.Proofs.Access.Discard
import FlatCode.Proofs.Branching.Condition
import FlatCode.Proofs.Relocation.Program
import FlatCode.Proofs.Layout.History
import FlatCode.Proofs.Token.Relexing
import FlatCode.Proofs.CommandLine
import FlatCode.Proofs.Demand.Expr
import FlatCode.Proofs.Demand.Stmt
import FlatCode.Proofs.Demand.Program
import FlatCode.Proofs.Demand.Progress
