import Aggregate.ChangeSet.Scripted
import Aggregate.Data.Json
import Aggregate.Logging.Startup
import Aggregate.Proofs.Loss
import Aggregate.Proofs.Occurrence
import Aggregate.Settings.Loading
import Aggregate.Store.Basic
import Aggregate.Value.Form
import Aggregate.Proofs.Edits
import Aggregate.Proofs.Insertion
import Aggregate.Proofs.Planning
import Aggregate.Proofs.BackFill
import Aggregate.Proofs.Execution
import Aggregate.Proofs.Granted
import Aggregate.Proofs.Declared
import Aggregate.Proofs.Conforming
import Aggregate.Proofs.Saving
import Aggregate.Proofs.Soundness
import Aggregate.Proofs.Identity
import Aggregate.Proofs.Mirror
import Aggregate.Proofs.Undo
import Aggregate.Proofs.Isolation
import Aggregate.Proofs.Preorder
import Aggregate.Proofs.Lineage
import Aggregate.Proofs.Assigning
import Aggregate.Proofs.InPlace
import Aggregate.Proofs.Keys
import Aggregate.Proofs.Grounded
import Aggregate.Proofs.Protocol
import Aggregate.Proofs.Settling
import Aggregate.Proofs.Replanning
import Aggregate.Proofs.Resaving
import Aggregate.Proofs.Updating
import Aggregate.Proofs.Deleting
import Aggregate.Proofs.Locality
import Aggregate.Proofs.Replacing
import Aggregate.Proofs.Serving
import Aggregate.Proofs.Downward
import Aggregate.Proofs.Limits
import Aggregate.Proofs.Reach
import Aggregate.Proofs.Containers
import Aggregate.Proofs.Sets
import Aggregate.Proofs.Form
import Aggregate.Proofs.Retrying
import Aggregate.Proofs.Registering
import Aggregate.Proofs.Dotted
