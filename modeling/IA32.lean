import IA32.Sweep
import IA32.Table.Builder
import IA32.Proofs.PrefixRun
import IA32.Proofs.ReaderLaws
import IA32.Proofs.Reading
import IA32.Proofs.BuiltTable
import IA32.Proofs.Locality
import IA32.Proofs.Encoding
import IA32.Proofs.OperandBytes
import IA32.Proofs.Outcome
import IA32.Proofs.Acceptance
import IA32.Proofs.Causes
import IA32.Proofs.Finality
import IA32.Proofs.Tiling
import IA32.Proofs.Growth
import IA32.Proofs.Registry
import IA32.Proofs.Refusals
import IA32.Proofs.Orders
import IA32.Proofs.Lengths
import IA32.Proofs.Selection
import IA32.Proofs.Completion
import IA32.Proofs.Liveness
import IA32.Proofs.Concatenation
import IA32.Proofs.Stages
import IA32.Proofs.Overrides
import IA32.Proofs.Duality
import IA32.Proofs.Addresses
import IA32.Proofs.Walks
import IA32.Proofs.Meeting
import IA32.Proofs.AddressForms
import IA32.Proofs.EffectiveAddress
import IA32.Proofs.Conformance
import IA32.Proofs.MemoryOperands
import IA32.Proofs.OperandSize
import IA32.Proofs.LengthLimit
import IA32.Proofs.DisplacementOnly
import IA32.Proofs.OperandOrder
import IA32.Proofs.ShortForms
import IA32.Proofs.LookAhead
import IA32.Proofs.Gaps
import IA32.Proofs.ScaleBytes
import IA32.Proofs.Texts
import IA32.Proofs.OperandText
import IA32.Proofs.FieldValues
import IA32.Proofs.PrefixScan
import IA32.Proofs.CursorReads
