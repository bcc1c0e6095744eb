import SqlCompose.Compose
import SqlCompose.Proofs.Aliases
import SqlCompose.Proofs.Batches
import SqlCompose.Proofs.ConditionRecords
import SqlCompose.Proofs.Dialects
import SqlCompose.Proofs.Flaws
import SqlCompose.Proofs.Formats
import SqlCompose.Proofs.Histories
import SqlCompose.Proofs.Joining
import SqlCompose.Proofs.JsonOutcomes
import SqlCompose.Proofs.Membership
import SqlCompose.Proofs.Normalization
import SqlCompose.Proofs.Padding
import SqlCompose.Proofs.Parentheses
import SqlCompose.Proofs.PhysicalTypes
import SqlCompose.Proofs.Pruning
import SqlCompose.Proofs.Quoting
import SqlCompose.Proofs.Rows
import SqlCompose.Proofs.Satisfaction
import SqlCompose.Proofs.SharedMembers
import SqlCompose.Proofs.StandaloneMembers
import SqlCompose.Proofs.Stems
import SqlCompose.Proofs.Structure
import SqlCompose.Proofs.Traceability
import SqlCompose.Proofs.Unseen
import SqlCompose.Schema
