import GoRaftKV.Raft.Node
import GoRaftKV.Storage.Store

namespace GoRaftKV.Raft

open Storage Library

/-- One past the largest `uint64`. Terms are incremented modulo this number. -/
def uint64Size : Nat := 2 ^ 64

namespace Node

def saveHardStateLocked (n : Node) (commitIndex : Nat) : Program StoreOp Bool :=
  Program.perform (.saveHardState (n.hardState commitIndex))

def persistHardStateLocked (n : Node) : Program StoreOp Bool :=
  n.saveHardStateLocked n.commitIndex

/-- The in-memory part of `becomeFollowerWithTimerLocked`, before the hard state is saved. -/
def followerAt (n : Node) (term : Nat) (leaderID : NodeId) : Node :=
  let n := if n.currentTerm < term then { n with currentTerm := term, votedFor := "" } else n
  { n with role := .follower, leaderID := leaderID, leaderNoopIndex := 0 }

/-- `becomeFollowerWithTimerLocked` without the election timer; the answer is false on an error. -/
def becomeFollowerLocked (n : Node) (cfg : Config) (term : Nat) (leaderID : NodeId) :
    Program StoreOp (Node × Bool) := do
  let next := n.followerAt term leaderID
  if ← next.persistHardStateLocked then
    if n.role = .leader then return (next.failUncommittedWaitersLocked cfg, true)
    else return (next, true)
  else return (next.failStorageLocked cfg, false)

def upToDate (n : Node) (req : RequestVoteRequest) : Bool :=
  n.lastTermLocked < req.lastLogTerm ∨
    (req.lastLogTerm = n.lastTermLocked ∧ n.lastIndexLocked ≤ req.lastLogIndex)

/-- The part of `HandleRequestVote` after the term check. -/
def castVote (n : Node) (req : RequestVoteRequest) :
    Program StoreOp (Node × RequestVoteResponse) := do
  if (n.votedFor = "" ∨ n.votedFor = req.candidateID) ∧ n.upToDate req = true then
    let voted := { n with votedFor := req.candidateID }
    if ← voted.persistHardStateLocked then
      return (voted, { term := n.currentTerm, voteGranted := true })
    else return (n, { term := n.currentTerm })
  else return (n, { term := n.currentTerm })

def handleRequestVote (n : Node) (cfg : Config) (req : RequestVoteRequest) :
    Program StoreOp (Node × RequestVoteResponse) := do
  if n.stopped = true ∨ n.storageFatal = true then return (n, { term := n.currentTerm })
  else if cfg.isKnownRemotePeerLocked req.candidateID = false then
    return (n, { term := n.currentTerm })
  else if req.term < n.currentTerm then return (n, { term := n.currentTerm })
  else if n.currentTerm < req.term then
    let (n, saved) ← n.becomeFollowerLocked cfg req.term ""
    if saved then n.castVote req else return (n, { term := n.currentTerm })
  else n.castVote req

/-- The last section of `HandleAppendEntries`: the commit index follows the leader's. -/
def commitTo (n : Node) (newCommit : Nat) : Program StoreOp (Node × AppendEntriesResponse) := do
  if n.commitIndex < newCommit then
    let committed := { n with commitIndex := newCommit }
    if ← committed.persistHardStateLocked then
      return (committed,
        { term := n.currentTerm, success := true, lastLogIndex := n.lastIndexLocked })
    else return (n, { term := n.currentTerm, lastLogIndex := n.lastIndexLocked })
  else return (n, { term := n.currentTerm, success := true, lastLogIndex := n.lastIndexLocked })

/-- `HandleAppendEntries` once the previous entry has matched: merge, write the WAL, commit. -/
def spliceEntries (n : Node) (cfg : Config) (req : AppendEntriesRequest) :
    Program StoreOp (Node × AppendEntriesResponse) := do
  let (merged, merge) := n.mergeEntriesLocked req.prevLogIndex req.entries
  if 0 < merge.conflictIndex then
    return (merged, { term := merged.currentTerm, conflictIndex := merge.conflictIndex,
                      lastLogIndex := merged.lastIndexLocked })
  else if merge.changed = true then
    let saved ← Program.perform
      (if merge.replaced = true then .replaceEntries merged.log else .appendEntries merge.appended)
    if saved then merged.commitTo (min req.leaderCommit merge.lastNewIndex)
    else
      let failed := failStorageLocked { merged with log := n.log } cfg
      return (failed, { term := failed.currentTerm, lastLogIndex := failed.lastIndexLocked })
  else merged.commitTo (min req.leaderCommit merge.lastNewIndex)

/-- `HandleAppendEntries` after the step-down: the checks of the previous entry. -/
def matchEntries (n : Node) (cfg : Config) (req : AppendEntriesRequest) :
    Program StoreOp (Node × AppendEntriesResponse) :=
  let n := { n with leaderID := req.leaderID }
  if req.prevLogIndex < n.snapshot.lastIncludedIndex then
    return (n, { term := n.currentTerm, conflictIndex := n.snapshot.lastIncludedIndex + 1,
                 lastLogIndex := n.lastIndexLocked })
  else if n.termAtLocked req.prevLogIndex ≠ some req.prevLogTerm then
    return (n, { term := n.currentTerm, conflictIndex := n.conflictIndexLocked req.prevLogIndex,
                 lastLogIndex := n.lastIndexLocked })
  else n.spliceEntries cfg req

def handleAppendEntries (n : Node) (cfg : Config) (req : AppendEntriesRequest) :
    Program StoreOp (Node × AppendEntriesResponse) := do
  let rejected :
  AppendEntriesResponse := { term := n.currentTerm, lastLogIndex := n.lastIndexLocked }
  if n.stopped = true ∨ n.storageFatal = true then return (n, rejected)
  else if cfg.isKnownRemotePeerLocked req.leaderID = false then return (n, rejected)
  else if req.term < n.currentTerm then return (n, rejected)
  else if n.currentTerm < req.term ∨ n.role ≠ .follower then
    let (n, saved) ← n.becomeFollowerLocked cfg req.term req.leaderID
    if saved then n.matchEntries cfg req
    else return (n, { term := n.currentTerm, lastLogIndex := n.lastIndexLocked })
  else n.matchEntries cfg req

/-- What the first locked section of `HandleInstallSnapshot` ends in: an answer, or the whole body
to decode without the lock. -/
inductive InstallProgress where
  | answer (resp : InstallSnapshotResponse)
  | decode (body : Bytes)
  deriving DecidableEq, Repr

/-- The chunk itself, appended to the stream `progress`. -/
def receiveChunk (n : Node) (progress : SnapshotProgress) (req : InstallSnapshotRequest) :
    Node × InstallProgress :=
  if req.offset ≠ progress.buffer.length then
    ({ n with pendingSnapshot := some progress },
      .answer { term := n.currentTerm, bytesReceived := progress.buffer.length })
  else
    let progress := { progress with buffer := progress.buffer ++ req.data }
    let n := { n with pendingSnapshot := some progress }
    if req.done = false then
      (n, .answer { term := n.currentTerm, success := true,
                    bytesReceived := progress.buffer.length })
    else (n, .decode progress.buffer)

/-- The first section of `HandleInstallSnapshot` after the step-down. -/
def collectChunk (n : Node) (req : InstallSnapshotRequest) : Node × InstallProgress :=
  let n := { n with leaderID := req.leaderID }
  if req.lastIncludedIndex ≤ n.commitIndex then
    ({ n with pendingSnapshot := none }, .answer { term := n.currentTerm, success := true })
  else
    let fresh : SnapshotProgress :=
      { leaderID := req.leaderID, lastIncludedIndex := req.lastIncludedIndex,
        lastIncludedTerm := req.lastIncludedTerm, buffer := [] }
    match n.pendingSnapshot with
    | some progress =>
        if progress.matches req = true then n.receiveChunk progress req
        else if req.offset ≠ 0 then (n, .answer { term := n.currentTerm })
        else n.receiveChunk fresh req
    | none =>
        if req.offset ≠ 0 then (n, .answer { term := n.currentTerm })
        else n.receiveChunk fresh req

/-- `HandleInstallSnapshot` up to the point where it gives up `n.mu` to decode the body. -/
def handleInstallSnapshot (n : Node) (cfg : Config) (req : InstallSnapshotRequest) :
    Program StoreOp (Node × InstallProgress) := do
  if n.stopped = true ∨ n.storageFatal = true then return (n, .answer { term := n.currentTerm })
  else if cfg.isKnownRemotePeerLocked req.leaderID = false then
    return (n, .answer { term := n.currentTerm })
  else if req.term < n.currentTerm then return (n, .answer { term := n.currentTerm })
  else if n.currentTerm < req.term ∨ n.role ≠ .follower then
    let (n, saved) ← n.becomeFollowerLocked cfg req.term req.leaderID
    if saved then return n.collectChunk req
    else return ({ n with pendingSnapshot := none }, .answer { term := n.currentTerm })
  else return n.collectChunk req

/-- The in-memory effect of a completed installation. -/
def installed (n : Node) (snapshot : Snapshot) (log : List LogEntry) (commit : Nat) : Node :=
  { n with
    snapshot := snapshot, log := log, commitIndex := commit
    lastApplied := max n.lastApplied snapshot.lastIncludedIndex
    sm := KVStateMachine.restore snapshot.data, history := snapshot.history
    pendingSnapshot := none }

/-- The three durable writes of an installation, then memory. -/
def persistInstall (n : Node) (cfg : Config) (snapshot : Snapshot) (bodyLength : Nat) :
    Program StoreOp (Node × InstallSnapshotResponse) := do
  let newLog := n.logAfterSnapshotLocked snapshot
  let newCommit := max n.commitIndex snapshot.lastIncludedIndex
  let failed := failStorageLocked { n with pendingSnapshot := none } cfg
  if ← Program.perform (.saveSnapshot snapshot) then
    if ← Program.perform (.replaceEntries newLog) then
      if ← n.saveHardStateLocked newCommit then
        return (n.installed snapshot newLog newCommit,
          { term := n.currentTerm, success := true, bytesReceived := bodyLength })
      else return (failed, { term := failed.currentTerm })
    else return (failed, { term := failed.currentTerm })
  else return (failed, { term := failed.currentTerm })

/-- The last section of `HandleInstallSnapshot` after its second step-down check. -/
def finishInstall (n : Node) (cfg : Config) (req : InstallSnapshotRequest) (body : Bytes)
    (data : Option KVMap) : Program StoreOp (Node × InstallSnapshotResponse) :=
  let n := { n with leaderID := req.leaderID }
  if req.lastIncludedIndex ≤ n.commitIndex then
    return ({ n with pendingSnapshot := none }, { term := n.currentTerm, success := true })
  else
    match n.pendingSnapshot with
    | none => return (n, { term := n.currentTerm })
    | some progress =>
        if progress.matches req = true ∧ progress.buffer.length = body.length then
          n.persistInstall cfg
            { lastIncludedIndex := req.lastIncludedIndex, lastIncludedTerm := req.lastIncludedTerm,
              data := data, history := req.history } body.length
        else return (n, { term := n.currentTerm })

/-- The section of `HandleInstallSnapshot` that runs after the body has been decoded. -/
def installDecoded (n : Node) (cfg : Config) (req : InstallSnapshotRequest) (body : Bytes)
    (data : Option KVMap) : Program StoreOp (Node × InstallSnapshotResponse) := do
  let refused := ({ n with pendingSnapshot := none }, { term := n.currentTerm })
  if n.stopped = true ∨ n.storageFatal = true then return refused
  else if cfg.isKnownRemotePeerLocked req.leaderID = false then return refused
  else if req.term < n.currentTerm then return refused
  else if n.currentTerm < req.term ∨ n.role ≠ .follower then
    let (n, saved) ← n.becomeFollowerLocked cfg req.term req.leaderID
    if saved then n.finishInstall cfg req body data
    else return ({ n with pendingSnapshot := none }, { term := n.currentTerm })
  else n.finishInstall cfg req body data

end Node

/-- The decoding step between the two sections: an empty body leaves the map nil. -/
def SnapshotCodec.decodeBody (codec : SnapshotCodec) (body : Bytes) : Option (Option KVMap) :=
  if body = [] then some none else codec.unmarshal body

end GoRaftKV.Raft
