import GoRaftKV.Library.ConsensusLocal
import GoRaftKV.Raft.Rejections
import GoRaftKV.Raft.Recoverable
import GoRaftKV.Storage.GoLines
import GoRaftKV.Storage.TornAppend
import GoRaftKV.Raft.Terms
import GoRaftKV.Raft.FailClosed
import GoRaftKV.Client.Kvctl
import GoRaftKV.Raft.CommitCoverage
import GoRaftKV.Raft.Transparency
import GoRaftKV.Raft.Agreement
import GoRaftKV.Raft.LinearizableGet
import GoRaftKV.Raft.Reassembly
import GoRaftKV.Raft.Transfer
import GoRaftKV.Raft.Progress
import GoRaftKV.Raft.FailedWrites
import GoRaftKV.Storage.RecordJson
import GoRaftKV.Raft.Linearizability
import GoRaftKV.Raft.ProtocolRuns
import GoRaftKV.Raft.Hints
import GoRaftKV.Raft.Counting
import GoRaftKV.Server.Wire
import GoRaftKV.Client.Replies
import GoRaftKV.Client.Durability
import GoRaftKV.Raft.FileRuns
