import Yadorilink.Admission.Completeness
import Yadorilink.Admission.Frame
import Yadorilink.Admission.LocalEdits
import Yadorilink.Admission.Redelivery
import Yadorilink.Bandwidth.TokenBucket
import Yadorilink.Checkpoints.FloorAdoption
import Yadorilink.Checkpoints.FrontierJoin
import Yadorilink.Checkpoints.QuarantineRuns
import Yadorilink.Checkpoints.RebootstrapTarget
import Yadorilink.Chunking.Durable
import Yadorilink.Debounce.Coverage
import Yadorilink.Debounce.DirtyJournal
import Yadorilink.Domain.DeltaCodec
import Yadorilink.Domain.MerkleProofs
import Yadorilink.Domain.NativeStateJoin
import Yadorilink.Hydration.Missing
import Yadorilink.Ignore.Stars
import Yadorilink.Namespace.Diffs
import Yadorilink.Policy.Heads
import Yadorilink.Projection.ContestedPaths
import Yadorilink.Projection.Displacement
import Yadorilink.Projection.ObligationClaims
import Yadorilink.Projection.ObligationRuns
import Yadorilink.Projection.ProviderRows
import Yadorilink.Projection.RowIdentities
import Yadorilink.Provider.IndexRuns
import Yadorilink.Provider.KeptBytes
import Yadorilink.Reconcile.CopyOrder
import Yadorilink.Reconcile.ForkPasses
import Yadorilink.Replication.ForkRuns
import Yadorilink.Replication.HeadRefinement
import Yadorilink.Replication.Honest
import Yadorilink.Replication.Progress
import Yadorilink.Replication.ServedRuns
import Yadorilink.Retention.Leases
import Yadorilink.RootAuthority.Drain
import Yadorilink.Segments.ActiveSegment
import Yadorilink.Segments.CrashSafety
import Yadorilink.Segments.SelfHealing
import Yadorilink.Segments.TalliedRuns
import Yadorilink.Send.Outbound
import Yadorilink.Send.ReceiveRuns
import Yadorilink.Serve.Fairness
import Yadorilink.Store.ClosureGate
import Yadorilink.Store.Reference
import Yadorilink.Store.RemovalChain
