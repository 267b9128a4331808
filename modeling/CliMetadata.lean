import CliMetadata.Proofs.LittleEndian
import CliMetadata.Table.Amendment
import CliMetadata.Table.CoreLibrary
import CliMetadata.TypeSystem.Lifecycle
import CliMetadata.Proofs.CompressedInteger
import CliMetadata.Proofs.CodedToken
import CliMetadata.Proofs.Signature.Canonical
import CliMetadata.Proofs.Signature.RoundTrip
import CliMetadata.Proofs.Signature.NormalForm
import CliMetadata.Proofs.Signature.Depth
import CliMetadata.Proofs.Signature.Delimiting
import CliMetadata.Proofs.Text.Utf8
import CliMetadata.Proofs.Attribute.RoundTrip
import CliMetadata.Proofs.Attribute.Named
import CliMetadata.Proofs.Attribute.WellTyped
import CliMetadata.Proofs.Heap.Storage
import CliMetadata.Proofs.Heap.Indices
import CliMetadata.Proofs.Table.Growth
import CliMetadata.Proofs.Table.Records
import CliMetadata.Proofs.Table.Relations
import CliMetadata.Proofs.TypeSystem.Identity
import CliMetadata.Proofs.TypeSystem.Answers
import CliMetadata.Proofs.TypeSystem.Substitution
import CliMetadata.Proofs.TypeSystem.Transfer.Basic
import CliMetadata.Proofs.TypeSystem.Transfer.Building
import CliMetadata.Proofs.TypeSystem.Transfer.Members
import CliMetadata.Proofs.TypeSystem.Transfer.Signatures
import CliMetadata.Proofs.TypeSystem.Transfer.Flags
import CliMetadata.Proofs.TypeSystem.Transfer.Hashing
import CliMetadata.Proofs.TypeSystem.Transfer.Questions
import CliMetadata.Proofs.TypeSystem.Starting
import CliMetadata.Proofs.TypeSystem.History
import CliMetadata.Proofs.TypeSystem.Yields
import CliMetadata.Proofs.TypeSystem.Circles
import CliMetadata.Proofs.TypeSystem.Commutation
import CliMetadata.Proofs.TypeSystem.Overrides
import CliMetadata.Proofs.TypeSystem.Lasting.Basic
import CliMetadata.Proofs.TypeSystem.Lasting.Building
import CliMetadata.Proofs.TypeSystem.Lasting.Members
import CliMetadata.Proofs.TypeSystem.Lasting.Signatures
import CliMetadata.Proofs.TypeSystem.Lasting.Flags
import CliMetadata.Proofs.TypeSystem.Lasting.Questions
import CliMetadata.Proofs.TypeSystem.Attempts
import CliMetadata.Proofs.TypeSystem.Canonical
import CliMetadata.Proofs.TypeSystem.Structure
import CliMetadata.Proofs.TypeSystem.Paths
import CliMetadata.Proofs.TypeSystem.Nearest
import CliMetadata.Proofs.TypeSystem.Nesting
import CliMetadata.Proofs.TypeSystem.Recurring.Basic
import CliMetadata.Proofs.TypeSystem.Recurring.Building
import CliMetadata.Proofs.TypeSystem.Recurring.Bases
import CliMetadata.Proofs.TypeSystem.Recurring.Finalizers
import CliMetadata.Proofs.TypeSystem.Recurring.Flags
import CliMetadata.Proofs.TypeSystem.Recurring.Requests
import CliMetadata.Proofs.TypeSystem.Recurring.Later
import CliMetadata.Proofs.TypeSystem.Requests
import CliMetadata.Proofs.TypeSystem.Modifiers
import CliMetadata.Proofs.TypeSystem.Failures
import CliMetadata.Proofs.Attribute.Named
import CliMetadata.Proofs.Attribute.WellTyped
import CliMetadata.Proofs.TypeSystem.Equivalence
import CliMetadata.Proofs.TypeSystem.Enumerations
import CliMetadata.Proofs.TypeSystem.Release.Recovery
import CliMetadata.Proofs.TypeSystem.Release.Answers
