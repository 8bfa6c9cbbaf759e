import UniversalSetup.Maintenance.Accepted
import UniversalSetup.Transaction.Digest
import UniversalSetup.Lease.Binding
import UniversalSetup.Lease.Retirement
import UniversalSetup.Archive.Streaming
import UniversalSetup.Audit.Binding
import UniversalSetup.Audit.Concurrent
import UniversalSetup.Json.Sound
import UniversalSetup.Public.Space
import UniversalSetup.Transaction.Stream
import UniversalSetup.Archive.Strip
import UniversalSetup.Archive.EntryDigest
import UniversalSetup.Archive.EndRecord
import UniversalSetup.Base.Sha256Object
import UniversalSetup.Lifecycle.Streamed
import UniversalSetup.Lifecycle.Repair
import UniversalSetup.Json.ArrayView
import UniversalSetup.State.Runs
import UniversalSetup.Transaction.Disjoint
import UniversalSetup.Policy.Below
import UniversalSetup.Lifecycle.PayloadPaths
import UniversalSetup.Policy.Links
import UniversalSetup.Archive.ExtraFields
import UniversalSetup.Windows.DataPartition
import UniversalSetup.Policy.Mounts
import UniversalSetup.Lifecycle.Exact
