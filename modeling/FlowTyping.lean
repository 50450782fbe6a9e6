import FlowTyping.Form.Receiver
import FlowTyping.Graph.Builder
import FlowTyping.Json.Normal
import FlowTyping.Main
import FlowTyping.Proofs.Graph.Paths
import FlowTyping.Proofs.Transfer.Operands
import FlowTyping.Proofs.Fixpoint.Run
import FlowTyping.Proofs.Graph.ReversePostorder
import FlowTyping.Proofs.Fixpoint.Turn
import FlowTyping.Proofs.Fixpoint.Settled
import FlowTyping.Proofs.Fixpoint.EntryStores
import FlowTyping.Proofs.Fixpoint.NodeValues
import FlowTyping.Proofs.Store.Precision
import FlowTyping.Proofs.Fixpoint.LeastSolution
import FlowTyping.Proofs.Store.Assignment
import FlowTyping.Proofs.Store.Dependence
import FlowTyping.Proofs.Store.Operation
import FlowTyping.Proofs.Store.Call
import FlowTyping.Proofs.Store.Concurrent
import FlowTyping.Proofs.Fixpoint.StoreInvariant
import FlowTyping.Proofs.Transfer.Monotone
import FlowTyping.Proofs.Fixpoint.Convergence
import FlowTyping.Proofs.Fixpoint.Widening
import FlowTyping.Proofs.Value.Lattice
import FlowTyping.Proofs.Store.Semilattice
import FlowTyping.Proofs.Contract.FieldChain
import FlowTyping.Proofs.Contract.Instantiation
import FlowTyping.Proofs.EntryStore.Preconditions
import FlowTyping.Proofs.EntryStore.FieldFacts
import FlowTyping.Proofs.Fixpoint.Observations
import FlowTyping.Proofs.Fixpoint.Diagnostics
import FlowTyping.Proofs.Contract.Meet
import FlowTyping.Proofs.Fixpoint.NormalizedRun
import FlowTyping.Proofs.Fixpoint.Failure
import FlowTyping.Proofs.Form.Fixture
import FlowTyping.Proofs.Contract.Outcomes
import FlowTyping.Proofs.Transfer.Equality
import FlowTyping.Proofs.Transfer.StaleOperand
import FlowTyping.Proofs.Store.Locals
import FlowTyping.Proofs.Store.AssignmentFrame
import FlowTyping.Proofs.Store.AssignedTarget
import FlowTyping.Proofs.Store.CallFrame
import FlowTyping.Proofs.Graph.Edges
import FlowTyping.Proofs.Fixpoint.BranchEdges
import FlowTyping.Proofs.EntryStore.Captures
import FlowTyping.Proofs.EntryStore.Constructor
import FlowTyping.Proofs.Transfer.LambdaResult
import FlowTyping.Proofs.Receiver.SyntacticEquality
import FlowTyping.Proofs.Tables.Subtyping
import FlowTyping.Proofs.Store.Listing
