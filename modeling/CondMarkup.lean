import CondMarkup.Main
import CondMarkup.Markup.Store
import CondMarkup.Proofs.Success
import CondMarkup.Proofs.Representation
import CondMarkup.Proofs.Selection
import CondMarkup.Proofs.PrintedText
import CondMarkup.Proofs.Plan
import CondMarkup.Proofs.Depth
import CondMarkup.Proofs.Location
import CondMarkup.Proofs.Form
import CondMarkup.Proofs.Idempotence
import CondMarkup.Expansion.InPlace
import CondMarkup.Proofs.StoreReads
import CondMarkup.Proofs.StoreActions
import CondMarkup.Proofs.Refinement
import CondMarkup.Proofs.InPlace
import CondMarkup.Proofs.SourceKept
import CondMarkup.Proofs.Containers
import CondMarkup.Proofs.Isolation
import CondMarkup.Proofs.Destinations
import CondMarkup.Proofs.Commands
import CondMarkup.Proofs.Matching
import CondMarkup.Proofs.Trace
import CondMarkup.Proofs.Footprint
import CondMarkup.Proofs.ExitStatus
import CondMarkup.Proofs.Verbatim
import CondMarkup.Proofs.Reading
import CondMarkup.Proofs.AppliedEdits
import CondMarkup.Proofs.Passes
import CondMarkup.Proofs.Unchanged
import CondMarkup.Proofs.Stretches
import CondMarkup.Proofs.Offsets
import CondMarkup.Proofs.Origins
import CondMarkup.Proofs.Configuration
import CondMarkup.Proofs.Collection
