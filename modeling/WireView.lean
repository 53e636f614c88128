import WireView.TypedView
import WireView.Transfer
import WireView.View.Slice
import WireView.Object.Record
import WireView.Local
import WireView.Proofs.Copying
import WireView.Proofs.Identity
import WireView.Proofs.Receiving
import WireView.Proofs.OperatorLaws
import WireView.Proofs.Fragments
import WireView.Proofs.Making
import WireView.Proofs.Packing
import WireView.Proofs.Sending
import WireView.Proofs.Snapshot
import WireView.Proofs.Transfers
import WireView.Proofs.Mapping
import WireView.Proofs.Requests
import WireView.Proofs.Batches
import WireView.Proofs.Object.Passing
import WireView.Proofs.Sharing
import WireView.Proofs.Local
import WireView.Proofs.Windows
import WireView.Proofs.Breaches
import WireView.Proofs.Dispatch
import WireView.Proofs.Wire
import WireView.Proofs.Trailing
import WireView.Proofs.Ranges
import WireView.Proofs.Extremes
import WireView.Proofs.Splitting
import WireView.Proofs.Missteps
