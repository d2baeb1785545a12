import ShardStore.Concurrent.KeyCollection
import ShardStore.Concurrent.Threads
import ShardStore.Concurrent.Traversal
import ShardStore.Document
import ShardStore.Json.Reader
import ShardStore.Process.Frame
import ShardStore.Proofs.AtomicUpdate
import ShardStore.Proofs.PlainMap
import ShardStore.Proofs.Reentrancy
import ShardStore.Proofs.SnapshotProtocol
import ShardStore.Routing.Stock
import ShardStore.Stored.Combiner
import ShardStore.Unsharded
import ShardStore.Proofs.Visits
import ShardStore.Proofs.Traversals.Keys
import ShardStore.Proofs.Views
import ShardStore.Proofs.Courses.Own
import ShardStore.Proofs.RoutingOnce
import ShardStore.Proofs.Threads.Finish
import ShardStore.Proofs.Threads.Orderly
import ShardStore.Proofs.Threads.KeyCalls
import ShardStore.Proofs.Threads.InTurn
import ShardStore.Proofs.Threads.Linear
import ShardStore.Proofs.Linearizability
import ShardStore.Proofs.WholeMapRefusal
import ShardStore.Proofs.Accounting
import ShardStore.Proofs.SnapshotRoom
import ShardStore.Proofs.Contents
import ShardStore.Proofs.SnapshotDrop
import ShardStore.Proofs.KeyGathering
import ShardStore.Proofs.Encoders
import ShardStore.Proofs.RoundTrip
import ShardStore.Proofs.Courses.Filing
import ShardStore.Proofs.Deadlocks
import ShardStore.Proofs.Independence
import ShardStore.Proofs.Interchange
import ShardStore.Proofs.Partition
import ShardStore.Proofs.Batches
import ShardStore.Proofs.NearMisses
import ShardStore.Proofs.RoutingRange
import ShardStore.Proofs.SnapshotHints
import ShardStore.Proofs.LowBits
import ShardStore.Proofs.ReportOrder
import ShardStore.Proofs.ScopeMarks
