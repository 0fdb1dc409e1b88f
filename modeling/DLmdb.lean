import DLmdb.Framework.Calls
import DLmdb.Framework.Runs
import DLmdb.Framework.FixedWidth
import DLmdb.Framework.Text
import DLmdb.Framework.Protobuf
import DLmdb.Framework.KeyedWrites
import DLmdb.Framework.Swaps
import DLmdb.Framework.Reaping
import DLmdb.Framework.Prefixes
import DLmdb.Framework.Paging
import DLmdb.Lmdb.Database
import DLmdb.Lmdb.Transaction
import DLmdb.Wire.Values
import DLmdb.StateMachine.Basic
import DLmdb.StateMachine.Apply
import DLmdb.StateMachine.Chunking
import DLmdb.StateMachine.Reads
import DLmdb.StateMachine.Scans
import DLmdb.StateMachine.ForwardScans
import DLmdb.StateMachine.ScanRevisions
import DLmdb.StateMachine.Snapshot
import DLmdb.StateMachine.Failures
import DLmdb.StateMachine.Lifecycle
import DLmdb.StateMachine.Durability
import DLmdb.StateMachine.LastApplied
import DLmdb.StateMachine.Replay
import DLmdb.StateMachine.Recovery
import DLmdb.StateMachine.SnapshotTail
import DLmdb.StorageEngine.Wal
import DLmdb.StorageEngine.LogModel
import DLmdb.StorageEngine.LogRuns
import DLmdb.StorageEngine.LastIndex
import DLmdb.StorageEngine.PurgeBoundary
import DLmdb.StorageEngine.Gapless
import DLmdb.StorageEngine.Purging
import DLmdb.Db.Reads
import DLmdb.Db.Scans
import DLmdb.Db.Agreement
import DLmdb.Db.Readers
import DLmdb.Db.Replicas
import DLmdb.Db.RawKeys
import DLmdb.Db.Writes
import DLmdb.Db.ConditionalWrites
import DLmdb.Db.Limits
import DLmdb.Db.TtlMap
import DLmdb.Db.Counting
import DLmdb.Node.Stores
import DLmdb.Node.Bootstrap
import DLmdb.Node.Directory
import DLmdb.Cluster.Nodes
import DLmdb.Cluster.Convergence
import DLmdb.Cluster.Listings
import DLmdb.Cluster.Exactness
import DLmdb.Cluster.Provenance
import DLmdb.Server.Http
import DLmdb.Server.Errors
import DLmdb.Server.Api
import DLmdb.Server.Service
