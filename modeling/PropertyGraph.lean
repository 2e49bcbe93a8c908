import PropertyGraph.Double.Bits
import PropertyGraph.Inspection
import PropertyGraph.Query.Engine
import PropertyGraph.Store.SnapshotJson
import PropertyGraph.Workspace.Cursor
import PropertyGraph.Workspace.Delivery
import PropertyGraph.Proofs.Cascade
import PropertyGraph.Proofs.Comparison
import PropertyGraph.Proofs.Delivery
import PropertyGraph.Proofs.Demand
import PropertyGraph.Proofs.EagerTraversal
import PropertyGraph.Proofs.Export
import PropertyGraph.Proofs.FilterMeaning
import PropertyGraph.Proofs.IntegerReads
import PropertyGraph.Proofs.LazyQuery
import PropertyGraph.Proofs.Membership
import PropertyGraph.Proofs.Mirror
import PropertyGraph.Proofs.MixedNumbers
import PropertyGraph.Proofs.NormalForm
import PropertyGraph.Proofs.Numbering
import PropertyGraph.Proofs.QueryAcceptance
import PropertyGraph.Proofs.QueryMask
import PropertyGraph.Proofs.Redelivery
import PropertyGraph.Proofs.Restored
import PropertyGraph.Proofs.SignedText
import PropertyGraph.Proofs.Snapshot
import PropertyGraph.Proofs.SnapshotAcceptance
import PropertyGraph.Proofs.StorageText
import PropertyGraph.Proofs.Survivors
import PropertyGraph.Proofs.TypedCursor
import PropertyGraph.Proofs.Undo
