import TinyKV.RankTreeRuns
import TinyKV.Raft.Restart
import TinyKV.Raft.ElectionTimer
import TinyKV.Raft.Commit
import TinyKV.Raft.Progress
import TinyKV.Raft.Replicated
import TinyKV.Raft.Replication
import TinyKV.Latches.Exclusion
import TinyKV.Storage.WriteFailure
import TinyKV.Scheduler.SafePoint
import TinyKV.Scheduler.IdAllocator
import TinyKV.Scheduler.StoreWeight
import TinyKV.Scheduler.TsoUnique
import TinyKV.Scheduler.RegionSize
import TinyKV.Scheduler.AddOperators
import TinyKV.Scheduler.OperatorProgress
import TinyKV.Scheduler.ReportSplit
import TinyKV.Scheduler.ReplicaChecker
import TinyKV.Scheduler.LeaderConvergence
import TinyKV.Raftstore.KeyLayout
import TinyKV.Raftstore.ClearData
import TinyKV.Raftstore.RaftLogGc
import TinyKV.Raftstore.SplitChecker
import TinyKV.Raftstore.SnapStream
import TinyKV.Raftstore.SnapSize
import TinyKV.Raftstore.StoreMeta
import TinyKV.Coprocessor.CountColumn
import TinyKV.Coprocessor.TopNRange
