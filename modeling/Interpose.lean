import Interpose.Engine.Lifecycle
import Interpose.Matching.Builder
import Interpose.Matching.RegexSyntax
import Interpose.Proofs.Pool.Growth
import Interpose.Proofs.StackMaps
import Interpose.Proofs.Execution.Neutral
import Interpose.Proofs.Execution.Reports
import Interpose.Proofs.Execution.Woven
import Interpose.Proofs.Inference.Peak
import Interpose.Proofs.Execution.Following
import Interpose.Proofs.Execution.Transparent
import Interpose.Proofs.Execution.Pruned
import Interpose.Proofs.Execution.Arguments
import Interpose.Proofs.Code.Decode
import Interpose.Proofs.Code.Formats
import Interpose.Proofs.Code.RoundTrip
import Interpose.Proofs.Code.Rows
import Interpose.Proofs.Code.Inverse
import Interpose.Proofs.Weave.Balance
import Interpose.Proofs.Weave.Routing
import Interpose.Proofs.Inference.Construction
import Interpose.Proofs.Inference.Flow
import Interpose.Proofs.ClassFile.Lossless
import Interpose.Proofs.Structure.SignatureCode
import Interpose.Proofs.Weave.Bookkeeping
import Interpose.Proofs.Weave.Selected
import Interpose.Proofs.Pool.Repetition
import Interpose.Proofs.Engine.Delivery
import Interpose.Proofs.Engine.Lifecycle
import Interpose.Proofs.Matching.Algebra
import Interpose.Proofs.Transform.History
import Interpose.Proofs.Inference.Stable
import Interpose.Proofs.Inference.Termination
import Interpose.Proofs.Weave.Repeated
import Interpose.Proofs.Code.Attribution
import Interpose.Proofs.Code.Unreached
import Interpose.Proofs.Weave.Unreached
import Interpose.Proofs.Code.Writable
import Interpose.Proofs.Code.Acceptance
import Interpose.Proofs.Code.Expanded
import Interpose.Proofs.Code.Nested
import Interpose.Proofs.Code.Refusals
import Interpose.Proofs.Weave.Verdict
import Interpose.Proofs.Text.Groups
import Interpose.Proofs.Structure.DescriptorGrammar
import Interpose.Proofs.Types.Ancestors
import Interpose.Proofs.Execution.Passing
import Interpose.Proofs.Inference.Facts
import Interpose.Proofs.Weave.Inferred
import Interpose.Proofs.Weave.Parameters
import Interpose.Proofs.Engine.Configuration
import Interpose.Proofs.Matching.Building
import Interpose.Proofs.Engine.Defining
import Interpose.Proofs.Transform.Recorded
import Interpose.Proofs.Inference.Compressed
import Interpose.Proofs.Code.Displacements
import Interpose.Proofs.Code.Paired
import Interpose.Proofs.Weave.Constructed
import Interpose.Proofs.Execution.Leaving
import Interpose.Proofs.Execution.Addresses
import Interpose.Proofs.Execution.Subroutines
