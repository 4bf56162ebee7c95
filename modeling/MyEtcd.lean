import MyEtcd.Cluster.Agreement
import MyEtcd.Cluster.Progress
import MyEtcd.Cluster.Reconfiguration
import MyEtcd.Cluster.Replicas
import MyEtcd.Cluster.Tenure
import MyEtcd.Http.RequestBody
import MyEtcd.Http.UrlDecode
import MyEtcd.Lease.Lifetime
import MyEtcd.Library.Execution
import MyEtcd.Library.OrderStatistic
import MyEtcd.Raft.Delivery
import MyEtcd.Raft.LogRepresentation
import MyEtcd.Raft.Connection
import MyEtcd.Raft.CommitBounds
import MyEtcd.Raft.ConflictSearch
import MyEtcd.Raft.Convergence
import MyEtcd.Raft.ElectionTimer
import MyEtcd.Raft.LogTerms
import MyEtcd.Raft.MessageSize
import MyEtcd.Raft.SingleNode
import MyEtcd.Raft.WholeMessages
import MyEtcd.Server.Acknowledgement
import MyEtcd.Server.CommandLine
import MyEtcd.Server.CommitFlags
import MyEtcd.Server.SnapshotLabel
import MyEtcd.Server.DiskCoverage
import MyEtcd.Server.LeaseDrops
import MyEtcd.Server.Members
import MyEtcd.Server.Recovery
import MyEtcd.Server.Replay
import MyEtcd.Server.ReportedRevision
import MyEtcd.Server.SharedMap
import MyEtcd.Server.Restart
import MyEtcd.Server.SnapshotSuffix
import MyEtcd.Server.Transactions
import MyEtcd.Server.TxnParsing
import MyEtcd.Server.ValidJson
import MyEtcd.Server.WatchCall
import MyEtcd.Snapshot.Interrupted
import MyEtcd.Storage.Compactions
import MyEtcd.Storage.CutFile
import MyEtcd.Storage.RangeReads
import MyEtcd.Storage.Reopen
import MyEtcd.Storage.SnapshotMetadata
import MyEtcd.Wal.Checksum
import MyEtcd.Wal.Damage
import MyEtcd.Wal.ReadBounds
import MyEtcd.Wal.TornWrite
import MyEtcd.Wal.Truncation
import MyEtcd.Watch.Delivery
