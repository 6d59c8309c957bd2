import GoRaftKV.Raft.Handlers

namespace GoRaftKV.Raft

open Storage Library

namespace Node

def advanceCommitLocked (n : Node) (cfg : Config) : Program StoreOp Node := do
  match n.commitTarget cfg n.lastIndexLocked with
  | none => return n
  | some index =>
      let committed := { n with commitIndex := index }
      if ← committed.persistHardStateLocked then return committed
      else return n.failStorageLocked cfg

/-- Memory after `proposeAppend` has written the entry: the log, the leader's own progress and the
registered waiter. -/
def accepted (n : Node) (cfg : Config) (entry : LogEntry) (chan : ChanId) : Node :=
  { n with
    log := n.log ++ [entry]
    matchIndex := Function.update n.matchIndex cfg.id entry.index
    nextIndex := Function.update n.nextIndex cfg.id (entry.index + 1)
    waiters := n.waiters ++ [(entry.index, chan)]
    proposed := n.proposed ++ [(chan, entry)] }

/-- `proposeAppend` on the fresh channel `chan`: the index of the accepted entry, or the error. -/
def proposeAppend (n : Node) (cfg : Config) (command : Command) (chan : ChanId) :
    Program StoreOp (Node × Except NodeError Nat) := do
  if n.stopped = true then return (n, .error .nodeStopped)
  else if n.storageFatal = true then return (n, .error .storage)
  else if n.role ≠ .leader then return (n, .error (n.notLeaderLocked cfg))
  else
    let entry : LogEntry :=
      { index := n.lastIndexLocked + 1, term := n.currentTerm, command := command }
    if ← Program.perform (.appendEntries [entry]) then
      let n ← (n.accepted cfg entry chan).advanceCommitLocked cfg
      return (n, .ok entry.index)
    else return (n.failStorageLocked cfg, .error .storage)

/-- Memory of a candidate whose new term has not been saved yet. -/
def candidate (n : Node) (cfg : Config) : Node :=
  { n with
    role := .candidate, currentTerm := (n.currentTerm + 1) % uint64Size, votedFor := cfg.id
    leaderID := "", leaderNoopIndex := 0 }

/-- The first section of `startElection`; the request it then sends to every peer. A failed save
restores everything but `leaderNoopIndex`. -/
def startElection (n : Node) (cfg : Config) :
    Program StoreOp (Node × Option RequestVoteRequest) := do
  if n.stopped = true ∨ n.role = .leader ∨ n.storageFatal = true then return (n, none)
  else
    let next := n.candidate cfg
    if ← next.persistHardStateLocked then
      return (next, some { term := next.currentTerm, candidateID := cfg.id,
                           lastLogIndex := next.lastIndexLocked,
                           lastLogTerm := next.lastTermLocked })
    else return ({ n with leaderNoopIndex := 0 }, none)

/-- Memory of a new leader before its no-op has been written. -/
def leading (n : Node) (cfg : Config) : Node :=
  let last := n.lastIndexLocked
  { n with
    role := .leader, leaderID := cfg.id
    nextIndex := fun peer => if peer = cfg.id ∨ peer ∈ cfg.peerAddrs then last + 1 else 0
    matchIndex := Function.update (fun _ => 0) cfg.id last
    replicating := fun _ => false }

/-- Memory of a new leader with its no-op in the log. -/
def withNoop (n : Node) (cfg : Config) (noop : LogEntry) : Node :=
  { n with
    log := n.log ++ [noop], leaderNoopIndex := noop.index
    matchIndex := Function.update n.matchIndex cfg.id noop.index
    nextIndex := Function.update n.nextIndex cfg.id (noop.index + 1) }

def becomeLeader (n : Node) (cfg : Config) (term : Nat) : Program StoreOp Node := do
  if n.stopped = true ∨ n.role ≠ .candidate ∨ n.currentTerm ≠ term then return n
  else
    let leader := n.leading cfg
    let noop : LogEntry :=
      { index := n.lastIndexLocked + 1, term := term, command := { op := .noop } }
    if ← Program.perform (.appendEntries [noop]) then
      (leader.withNoop cfg noop).advanceCommitLocked cfg
    else return leader.failStorageLocked cfg

/-- What the first section of a `replicateToPeer` attempt decides. -/
inductive Dispatch where
  | quit
  | retry
  | append (req : AppendEntriesRequest)
  | snapshot (term : Nat) (snapshot : Snapshot)

/-- The first section of one attempt of `replicateToPeer`. -/
def replicateToPeer (n : Node) (cfg : Config) (peer : NodeId) : Node × Dispatch :=
  if n.stopped = true ∨ n.role ≠ .leader then (n, .quit)
  else
    let next := if n.nextIndex peer = 0 then n.lastIndexLocked + 1 else n.nextIndex peer
    let n := { n with nextIndex := Function.update n.nextIndex peer next }
    if next ≤ n.snapshot.lastIncludedIndex then (n, .snapshot n.currentTerm n.snapshot)
    else
      match n.termAtLocked (next - 1) with
      | none =>
          ({ n with nextIndex :=
              Function.update n.nextIndex peer (max 1 (n.snapshot.lastIncludedIndex + 1)) }, .retry)
      | some prevTerm =>
          (n, .append
            { term := n.currentTerm, leaderID := cfg.id, prevLogIndex := next - 1
              prevLogTerm := prevTerm, entries := n.entriesFromLocked next
              leaderCommit := n.commitIndex })

/-- The peer has acknowledged everything up to `index`. -/
def acknowledge (n : Node) (peer : NodeId) (index : Nat) : Node :=
  { n with
    matchIndex := Function.update n.matchIndex peer (max (n.matchIndex peer) index)
    nextIndex := Function.update n.nextIndex peer (max (n.nextIndex peer) (index + 1)) }

/-- The second section of an attempt: the answer to `req`. The flag is the result of
`replicateToPeer`, `none` when the loop goes on. -/
def replicateReply (n : Node) (cfg : Config) (peer : NodeId) (req : AppendEntriesRequest)
    (resp : AppendEntriesResponse) : Program StoreOp (Node × Option Bool) := do
  if n.currentTerm < resp.term then
    let (n, _) ← n.becomeFollowerLocked cfg resp.term ""
    return (n, some false)
  else if n.role ≠ .leader ∨ n.currentTerm ≠ req.term then return (n, some false)
  else if resp.success = true then
    let n ← (n.acknowledge peer (req.prevLogIndex + req.entries.length)).advanceCommitLocked cfg
    return (n, some true)
  else if 0 < resp.conflictIndex then
    return ({ n with nextIndex := Function.update n.nextIndex peer resp.conflictIndex }, none)
  else return (n, some false)

/-- The locked check of `sendSnapshot` after each answer; false ends the transfer. -/
def sendSnapshotReply (n : Node) (cfg : Config) (term : Nat) (resp : InstallSnapshotResponse) :
    Program StoreOp (Node × Bool) := do
  if n.currentTerm < resp.term then
    let (n, _) ← n.becomeFollowerLocked cfg resp.term ""
    return (n, false)
  else return (n, n.role = .leader ∧ n.currentTerm = term)

/-- The section of `replicateToPeer` after `sendSnapshot` has returned true. -/
def snapshotSent (n : Node) (peer : NodeId) (term snapIdx : Nat) : Node :=
  if n.role = .leader ∧ n.currentTerm = term then n.acknowledge peer snapIdx else n

def stop (n : Node) : Node :=
  if n.stopped = true then n
  else resolveWaiters { n with stopped := true } (fun _ => true) { err := some .nodeStopped }

end Node

def defaultSnapshotChunkBytes : Nat := 2 ^ 20

/-- A snapshot on its way to a peer: the arguments of one `sendSnapshot` call. -/
structure Stream where
  node : NodeId
  peer : NodeId
  term : Nat
  snapshot : Snapshot
  chunkSize : Nat

/-- The request `sendSnapshot` makes at `offset`. -/
def Stream.chunk (stream : Stream) (codec : SnapshotCodec) (offset : Nat) :
    InstallSnapshotRequest :=
  let body := codec.marshal stream.snapshot.data
  let finish := min (offset + stream.chunkSize) body.length
  { term := stream.term, leaderID := stream.node
    lastIncludedIndex := stream.snapshot.lastIncludedIndex
    lastIncludedTerm := stream.snapshot.lastIncludedTerm
    offset := offset, data := (body.take finish).drop offset, done := finish = body.length
    history := stream.snapshot.history }

end GoRaftKV.Raft
