import NestedIR.Main
import NestedIR.Proofs.Attribute.Failures
import NestedIR.Proofs.Attribute.Injectivity
import NestedIR.Proofs.Attribute.Termination
import NestedIR.Proofs.Attribute.Verbatim
import NestedIR.Proofs.Context.Attachment
import NestedIR.Proofs.Context.Containment
import NestedIR.Proofs.Context.Definitions
import NestedIR.Proofs.Context.Depth
import NestedIR.Proofs.Context.Effect
import NestedIR.Proofs.Context.Listing
import NestedIR.Proofs.Context.Lookup
import NestedIR.Proofs.Context.Nesting
import NestedIR.Proofs.Context.Ownership
import NestedIR.Proofs.Context.Redirection
import NestedIR.Proofs.Context.Request
import NestedIR.Proofs.Context.Unfolding
import NestedIR.Proofs.Context.UseChains
import NestedIR.Proofs.Context.Values
import NestedIR.Proofs.Dialect.IntegerWidth
import NestedIR.Proofs.OpName
import NestedIR.Proofs.Outermost
import NestedIR.Proofs.Pass.Advance
import NestedIR.Proofs.Pass.Appearance
import NestedIR.Proofs.Pass.Canonicalization
import NestedIR.Proofs.Pass.Checklist
import NestedIR.Proofs.Pass.Convergence
import NestedIR.Proofs.Pass.DeadCode
import NestedIR.Proofs.Pass.DefaultPipeline
import NestedIR.Proofs.Pass.Elimination
import NestedIR.Proofs.Pass.Erasure
import NestedIR.Proofs.Pass.FailFast
import NestedIR.Proofs.Pass.Folding
import NestedIR.Proofs.Pass.Forecast
import NestedIR.Proofs.Pass.Frame
import NestedIR.Proofs.Pass.History
import NestedIR.Proofs.Pass.Independence
import NestedIR.Proofs.Pass.Invocation
import NestedIR.Proofs.Pass.Liveness
import NestedIR.Proofs.Pass.Meaning
import NestedIR.Proofs.Pass.Mirror
import NestedIR.Proofs.Pass.NormalForm
import NestedIR.Proofs.Pass.Operands
import NestedIR.Proofs.Pass.Optimization
import NestedIR.Proofs.Pass.Order
import NestedIR.Proofs.Pass.Outline
import NestedIR.Proofs.Pass.Pipeline
import NestedIR.Proofs.Pass.Places
import NestedIR.Proofs.Pass.Preservation
import NestedIR.Proofs.Pass.Replacement
import NestedIR.Proofs.Pass.Requests
import NestedIR.Proofs.Pass.Rest
import NestedIR.Proofs.Pass.Rewriting
import NestedIR.Proofs.Pass.Rules
import NestedIR.Proofs.Pass.Safety
import NestedIR.Proofs.Pass.Schedule
import NestedIR.Proofs.Pass.SideEffects
import NestedIR.Proofs.Pass.SingleSweep
import NestedIR.Proofs.Pass.Sweep
import NestedIR.Proofs.Pass.Targets
import NestedIR.Proofs.Pass.Termination
import NestedIR.Proofs.Pass.Tree
import NestedIR.Proofs.Pass.Turns
import NestedIR.Proofs.Pass.Verification
import NestedIR.Proofs.Pass.Workload
import NestedIR.Proofs.Shallow
import NestedIR.Proofs.Structure.Children
import NestedIR.Proofs.Structure.Dump
import NestedIR.Proofs.Structure.Recursion
import NestedIR.Proofs.Structure.Room
import NestedIR.Proofs.Structure.Shape
import NestedIR.Proofs.Structure.Sources
import NestedIR.Proofs.Structure.TextLines
import NestedIR.Proofs.Text
import NestedIR.Proofs.Text.Delimiting
import NestedIR.Proofs.Text.Unescaping
import NestedIR.Proofs.Traversal
import NestedIR.Proofs.TypeTable
import NestedIR.Proofs.TypeTable.Interning
import NestedIR.Proofs.Walk
