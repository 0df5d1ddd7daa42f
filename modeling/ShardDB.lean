import ShardDB.Lib.Bytes
import ShardDB.Lib.SortedMap
import ShardDB.Lib.BigEndian
import ShardDB.Lib.Utf8
import ShardDB.Lib.Codec
import ShardDB.Lib.Json
import ShardDB.Lib.Decimal
import ShardDB.Lib.Search
import ShardDB.Lib.Tiling
import ShardDB.Lib.Runs
import ShardDB.Lib.History
import ShardDB.Lib.Interleaving
import ShardDB.Lib.Linearization
import ShardDB.Lib.Gather
import ShardDB.Lib.ShiftRegister
import ShardDB.Lib.Simulation
import ShardDB.Lib.MultiVersion
import ShardDB.Lib.Timeline
import ShardDB.Lib.Url
import ShardDB.Storage.Mvcc
import ShardDB.Storage.Memory
import ShardDB.Storage.Intents
import ShardDB.Storage.Reads
import ShardDB.Storage.Scan
import ShardDB.Storage.MvccGet
import ShardDB.Storage.Snapshot
import ShardDB.Storage.TwoPhase
import ShardDB.Storage.Gc
import ShardDB.Storage.GcRuns
import ShardDB.Sql.Executor
import ShardDB.Sql.ScanRows
import ShardDB.Sql.ReadPaths
import ShardDB.Sql.ScanGc
import ShardDB.Sql.Parser
import ShardDB.Sql.Planner
import ShardDB.Shard.Entry
import ShardDB.Shard.WireFormat
import ShardDB.Shard.Replay
import ShardDB.Shard.Twice
import ShardDB.Shard.CurrentValue
import ShardDB.Storage.View
import ShardDB.Storage.OnePhase
import ShardDB.Storage.Ownership
import ShardDB.Storage.Commute
import ShardDB.Storage.Refinement
import ShardDB.Sql.SnapshotReads
import ShardDB.Shard.Migration
import ShardDB.Storage.Wal
import ShardDB.Storage.WalCut
import ShardDB.Storage.WalFaults
import ShardDB.Storage.WalDamage
import ShardDB.Routing.Router
import ShardDB.Txn.Coordinator
import ShardDB.Txn.ConflictFree
import ShardDB.Txn.System
import ShardDB.Txn.Status
import ShardDB.Txn.Atomicity
import ShardDB.Txn.SerialReads
import ShardDB.Txn.Concurrent
import ShardDB.Txn.DecidedOnce
import ShardDB.Txn.OneTimestamp
import ShardDB.Txn.CallTrace
import ShardDB.Txn.AckedWrites
import ShardDB.Txn.OrphanLocks
import ShardDB.Proxy.Handler
import ShardDB.Proxy.Placement
import ShardDB.Proxy.Rollback
import ShardDB.Proxy.Http
import ShardDB.Proxy.InsertPaths
import ShardDB.Proxy.SelectRouting
import ShardDB.Proxy.ScatterGather
import ShardDB.Proxy.ShardedTable
import ShardDB.Raft.MemoryStorage
import ShardDB.Raft.DiskStorage
import ShardDB.Raft.Compaction
import ShardDB.Raft.Node
import ShardDB.Raft.Recovery
import ShardDB.Raft.Saves
import ShardDB.Raft.Membership
import ShardDB.Raft.DamagedLog
import ShardDB.Raft.Replicas
import ShardDB.Raft.RestoredRows
import ShardDB.Raft.Transport
import ShardDB.Meta.Store
import ShardDB.Meta.Partition
import ShardDB.Meta.Snapshot
import ShardDB.Metrics.Registry
