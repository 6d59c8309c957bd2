import GoRaftKV.Storage.StateMachine
import GoRaftKV.Library.Consensus

namespace GoRaftKV.Raft

open Storage

/-- Node identifiers are strings; the empty string stands for no node. -/
abbrev NodeId := String

abbrev Bytes := List UInt8

/-- The errors `Propose` and `LinearizableGet` hand to their callers. -/
inductive NodeError where
  | notLeader (leaderID leaderAddress : String)
  | nodeStopped
  | storage
  | proposalUnknown (index : Nat)
  | rejected (message : String)
  | noQuorum
  deriving DecidableEq, Repr

structure RequestVoteRequest where
  term : Nat
  candidateID : NodeId
  lastLogIndex : Nat
  lastLogTerm : Nat
  deriving DecidableEq, Repr

structure RequestVoteResponse where
  term : Nat
  voteGranted : Bool := false
  deriving DecidableEq, Repr

structure AppendEntriesRequest where
  term : Nat
  leaderID : NodeId
  prevLogIndex : Nat
  prevLogTerm : Nat
  entries : List LogEntry
  leaderCommit : Nat
  deriving DecidableEq, Repr

structure AppendEntriesResponse where
  term : Nat
  success : Bool := false
  lastLogIndex : Nat
  conflictIndex : Nat := 0
  deriving DecidableEq, Repr

/-- `history` is the ghost of the snapshot this chunk belongs to. -/
structure InstallSnapshotRequest where
  term : Nat
  leaderID : NodeId
  lastIncludedIndex : Nat
  lastIncludedTerm : Nat
  offset : Nat
  data : Bytes
  done : Bool
  history : List LogEntry := []
  deriving DecidableEq, Repr

structure InstallSnapshotResponse where
  term : Nat
  success : Bool := false
  bytesReceived : Nat := 0
  deriving DecidableEq, Repr

inductive Request where
  | vote (req : RequestVoteRequest)
  | append (req : AppendEntriesRequest)
  | snapshot (req : InstallSnapshotRequest)
  deriving DecidableEq, Repr

inductive Response where
  | vote (resp : RequestVoteResponse)
  | append (resp : AppendEntriesResponse)
  | snapshot (resp : InstallSnapshotResponse)
  deriving DecidableEq, Repr

/-- `peers` holds the keys of `Peers` (the node's own among them); the address maps answer the
empty string for a missing key. -/
structure Config where
  id : NodeId
  address : String
  peers : Finset NodeId
  peerAddress : NodeId → String
  clientAddress : NodeId → String
  snapshotThreshold : Nat
  snapshotChunkBytes : Nat

def Config.peerAddrs (cfg : Config) : Finset NodeId := cfg.peers.erase cfg.id

def Config.quorum (cfg : Config) : Nat := (cfg.peerAddrs.card + 1) / 2 + 1

def Config.isKnownRemotePeerLocked (cfg : Config) (id : NodeId) : Bool :=
  id ≠ "" ∧ id ≠ cfg.id ∧ id ∈ cfg.peerAddrs

/-- The JSON form of a snapshot body: what `json.Marshal` writes for a string map is never empty
and is read back by `json.Unmarshal`. -/
structure SnapshotCodec where
  marshal : Option KVMap → Bytes
  unmarshal : Bytes → Option (Option KVMap)
  marshal_ne_nil : ∀ data, marshal data ≠ []
  unmarshal_marshal : ∀ data, unmarshal (marshal data) = some data

end GoRaftKV.Raft
