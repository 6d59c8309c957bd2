import GoRaftKV.Raft.Leadership

namespace GoRaftKV.Raft

open Storage Library

namespace Node

/-- The first section of an `applyReady` iteration: the entry to apply, if any. -/
def applyNext (n : Node) : Node × Option LogEntry :=
  if n.commitIndex ≤ n.lastApplied then (n, none)
  else if n.lastApplied + 1 ≤ n.snapshot.lastIncludedIndex then
    ({ n with lastApplied := n.snapshot.lastIncludedIndex }, none)
  else (n, n.entryAtLocked (n.lastApplied + 1))

/-- `n.sm.Apply`, which runs without `n.mu`. -/
def applyEntry (n : Node) (entry : LogEntry) : Node × ApplyResult :=
  let (data, result) := KVStateMachine.apply n.sm entry.command
  ({ n with sm := data, history := n.history ++ [entry],
            applies := n.applies ++ [(entry, result)] },
    result)

/-- The re-check that `applyReady` makes before it counts the entry as applied. -/
def stillApplies (n : Node) (entry : LogEntry) : Bool :=
  entry.index = n.lastApplied + 1 ∧ entry.index ≤ n.commitIndex ∧
    (n.entryAtLocked entry.index).map LogEntry.term = some entry.term

/-- The last section of an `applyReady` iteration: the snapshot to persist, if any. -/
def applyDone (n : Node) (cfg : Config) (entry : LogEntry) (result : ApplyResult) :
    Node × Option Snapshot :=
  if n.stillApplies entry = false then (n, none)
  else
    let n := finishWaitersLocked { n with lastApplied := entry.index } entry.index result
    if 0 < cfg.snapshotThreshold ∧ cfg.snapshotThreshold < n.log.length ∧
        n.snapshot.lastIncludedIndex < n.lastApplied then
      (n, n.snapshotAtLocked n.lastApplied)
    else (n, none)

/-- The check that `persistSnapshot` makes before and after it saves the snapshot. -/
def worthPersisting (n : Node) (snapshot : Snapshot) : Bool :=
  n.snapshot.lastIncludedIndex < snapshot.lastIncludedIndex ∧
    snapshot.lastIncludedIndex ≤ n.lastApplied

/-- The last section of `persistSnapshot`. -/
def compact (n : Node) (snapshot : Snapshot) : Program StoreOp Node := do
  if n.worthPersisting snapshot = false then return n
  else
    let newLog := n.log.filter fun entry => snapshot.lastIncludedIndex < entry.index
    if ← Program.perform (.replaceEntries newLog) then
      return { n with snapshot := snapshot, log := newLog }
    else return n

/-- Memory as `NewNode` builds it from what `Load` returned. -/
def restored (loaded : Loaded) : Node :=
  let snapshot := loaded.snapshot
  let commitIndex :=
    min (max loaded.hardState.commitIndex snapshot.lastIncludedIndex)
      (lastIndex snapshot loaded.entries)
  let replayed := loaded.entries.takeWhile fun entry => entry.index ≤ commitIndex
  { currentTerm := loaded.hardState.currentTerm
    votedFor := loaded.hardState.votedFor
    log := loaded.entries
    snapshot := snapshot
    commitIndex := commitIndex
    lastApplied := lastIndex snapshot replayed
    sm := KVStateMachine.replay (KVStateMachine.restore snapshot.data) replayed
    history := snapshot.history ++ replayed }

/-- `NewNode` after `Load`: the WAL rewrite that `Load` may owe, then the hard state when the commit
index had to be clamped. `none` stands for a returned error. -/
def newNode (loaded : Loaded) : Program StoreOp (Option Node) := do
  let n := restored loaded
  let rewritten ←
    if loaded.rewrite = true then
      Program.perform (.rewriteWAL loaded.snapshot.lastIncludedIndex
        loaded.snapshot.lastIncludedTerm loaded.entries)
    else pure true
  if rewritten = false then return none
  else if loaded.hardState.commitIndex ≠ n.commitIndex then
    if ← n.persistHardStateLocked then return some n else return none
  else return some n

end Node

/-- Who holds `applyMu`: nobody, or an `applyReady` iteration before or after its `sm.Apply`. -/
inductive ApplyLock where
  | free
  | applying (entry : LogEntry)
  | applied (entry : LogEntry) (result : ApplyResult)
  deriving DecidableEq

/-- Who holds `snapshotPersistMu`: nobody, a `persistSnapshot` call before or after its
`SaveSnapshot`, or a `HandleInstallSnapshot` that decodes its body to answer the RPC `call`. -/
inductive PersistLock where
  | free
  | checked (snapshot : Snapshot)
  | saved (snapshot : Snapshot)
  | decoding (call : Nat) (req : InstallSnapshotRequest) (body : Bytes)
  deriving DecidableEq

/-- A running process. `captured` holds the snapshots on their way into `persistSnapshot`. -/
structure Proc where
  node : Node
  applyMu : ApplyLock := .free
  persistMu : PersistLock := .free
  captured : List Snapshot := []

/-- A machine: its data directory and, unless it is down, the process. `chans` numbers the
channels handed out so far. -/
structure Host where
  disk : Disk := {}
  proc : Option Proc := none
  chans : Nat := 0

/-- The separately locked sections of the node's goroutines, and the events of its machine. -/
inductive Action where
  | requestVote (req : RequestVoteRequest)
  | appendEntries (req : AppendEntriesRequest)
  | installSnapshot (call : Nat) (req : InstallSnapshotRequest)
  | installDecoded
  | propose (command : Command)
  | cancel (index : Nat) (chan : ChanId)
  | startElection
  | becomeLeader (term : Nat)
  | stepDown (term : Nat) (leaderID : NodeId)
  | replicate (peer : NodeId)
  | replicateReply (peer : NodeId) (req : AppendEntriesRequest) (resp : AppendEntriesResponse)
  | snapshotReply (term : Nat) (resp : InstallSnapshotResponse)
  | snapshotSent (peer : NodeId) (term snapIdx : Nat)
  | applyNext
  | applyEntry
  | applyDone
  | persistCheck (position : Nat)
  | persistSave
  | persistEnd
  | stop
  | crash
  | restart

/-- What a section hands to its caller or to the network. -/
inductive Output where
  | nothing
  | vote (resp : RequestVoteResponse)
  | append (resp : AppendEntriesResponse)
  | snapshot (call : Nat) (resp : InstallSnapshotResponse)
  | proposed (chan : ChanId) (result : Except NodeError LogEntry)
  | cancelled (index : Nat) (chan : ChanId) (outcome : Option ApplyOutcome)
  | campaign (req : RequestVoteRequest)
  | dispatch (peer : NodeId) (dispatch : Node.Dispatch)
  | replicated (peer : NodeId) (acked : Bool)
  | chunkAcked (acked : Bool)

def Output.ofElection : Option RequestVoteRequest → Output
  | some req => .campaign req
  | none => .nothing

def Output.ofAttempt (peer : NodeId) : Option Bool → Output
  | some acked => .replicated peer acked
  | none => .nothing

namespace Host

/-- Runs a section of the process. A crash inside it takes the process down. -/
def run {α : Type} (host : Host) (program : Program StoreOp α) (fates : List Fate)
    (finish : α → Host × Output) : Host × Output :=
  match program.exec store host.disk fates with
  | .done value disk => ({ (finish value).1 with disk := disk }, (finish value).2)
  | .crashed disk => ({ host with disk := disk, proc := none }, .nothing)

def withProc (host : Host) (proc : Proc) : Host := { host with proc := some proc }

def withNode (host : Host) (proc : Proc) (node : Node) : Host :=
  host.withProc { proc with node := node }

end Host

/-- One locked section of a running process. Sections that wait for a lock held by another do
nothing. -/
def Proc.step (cfg : Config) (codec : SnapshotCodec) (host : Host) (proc : Proc)
    (fates : List Fate) :
    Action → Host × Output
  | .requestVote req =>
      host.run (proc.node.handleRequestVote cfg req) fates fun (node, resp) =>
        (host.withNode proc node, .vote resp)
  | .appendEntries req =>
      host.run (proc.node.handleAppendEntries cfg req) fates fun (node, resp) =>
        (host.withNode proc node, .append resp)
  | .installSnapshot call req =>
      match proc.persistMu with
      | .free =>
          host.run (proc.node.handleInstallSnapshot cfg req) fates fun (node, progress) =>
            match progress with
            | .answer resp => (host.withNode proc node, .snapshot call resp)
            | .decode body =>
                (host.withProc { proc with node := node, persistMu := .decoding call req body },
                  .nothing)
      | _ => (host, .nothing)
  | .installDecoded =>
      match proc.persistMu with
      | .decoding call req body =>
          match codec.decodeBody body with
          | none =>
              (host.withProc { proc with
                node := { proc.node with pendingSnapshot := none }, persistMu := .free },
                .snapshot call { term := proc.node.currentTerm })
          | some data =>
              if proc.applyMu = .free then
                host.run (proc.node.installDecoded cfg req body data) fates fun (node, resp) =>
                  (host.withProc { proc with node := node, persistMu := .free },
                    .snapshot call resp)
              else (host, .nothing)
      | _ => (host, .nothing)
  | .propose command =>
      host.run (proc.node.proposeAppend cfg command host.chans) fates fun (node, result) =>
        ({ host.withNode proc node with chans := host.chans + 1 },
          .proposed host.chans (result.map fun index =>
            { index := index, term := proc.node.currentTerm, command := command }))
  | .cancel index chan =>
      (host.withNode proc (proc.node.removeWaiter index chan),
        .cancelled index chan (proc.node.received chan))
  | .startElection =>
      host.run (proc.node.startElection cfg) fates fun (node, req) =>
        (host.withNode proc node, .ofElection req)
  | .becomeLeader term =>
      host.run (proc.node.becomeLeader cfg term) fates fun node =>
        (host.withNode proc node, .nothing)
  | .stepDown term leaderID =>
      host.run (proc.node.becomeFollowerLocked cfg term leaderID) fates fun (node, _) =>
        (host.withNode proc node, .nothing)
  | .replicate peer =>
      let (node, dispatch) := proc.node.replicateToPeer cfg peer
      (host.withNode proc node, .dispatch peer dispatch)
  | .replicateReply peer req resp =>
      host.run (proc.node.replicateReply cfg peer req resp) fates fun (node, acked) =>
        (host.withNode proc node, .ofAttempt peer acked)
  | .snapshotReply term resp =>
      host.run (proc.node.sendSnapshotReply cfg term resp) fates fun (node, leads) =>
        (host.withNode proc node, .chunkAcked (leads && resp.success))
  | .snapshotSent peer term snapIdx =>
      (host.withNode proc (proc.node.snapshotSent peer term snapIdx), .replicated peer true)
  | .applyNext =>
      match proc.applyMu with
      | .free =>
          match proc.node.applyNext with
          | (node, none) => (host.withNode proc node, .nothing)
          | (node, some entry) =>
              (host.withProc { proc with node := node, applyMu := .applying entry }, .nothing)
      | _ => (host, .nothing)
  | .applyEntry =>
      match proc.applyMu with
      | .applying entry =>
          let (node, result) := proc.node.applyEntry entry
          (host.withProc { proc with node := node, applyMu := .applied entry result }, .nothing)
      | _ => (host, .nothing)
  | .applyDone =>
      match proc.applyMu with
      | .applied entry result =>
          let (node, snapshot) := proc.node.applyDone cfg entry result
          (host.withProc { proc with
            node := node, applyMu := .free, captured := proc.captured ++ snapshot.toList },
              .nothing)
      | _ => (host, .nothing)
  | .persistCheck position =>
      match proc.persistMu, proc.captured[position]? with
      | .free, some snapshot =>
          let captured := proc.captured.eraseIdx position
          if proc.node.worthPersisting snapshot = true then
            (host.withProc { proc with captured := captured, persistMu := .checked snapshot },
              .nothing)
          else (host.withProc { proc with captured := captured }, .nothing)
      | _, _ => (host, .nothing)
  | .persistSave =>
      match proc.persistMu with
      | .checked snapshot =>
          host.run (Program.perform (.saveSnapshot snapshot)) fates fun saved =>
            (host.withProc { proc with persistMu := if saved then .saved snapshot else .free },
              .nothing)
      | _ => (host, .nothing)
  | .persistEnd =>
      match proc.persistMu with
      | .saved snapshot =>
          host.run (proc.node.compact snapshot) fates fun node =>
            (host.withProc { proc with node := node, persistMu := .free }, .nothing)
      | _ => (host, .nothing)
  | .stop => (host.withNode proc proc.node.stop, .nothing)
  | .crash => ({ host with proc := none }, .nothing)
  | .restart => (host, .nothing)

/-- One event of a host. A host that is down can only restart, and stays down when `Load` or
`NewNode` fails. -/
def Host.step (cfg : Config) (codec : SnapshotCodec) (host : Host) (fates : List Fate)
    (action : Action) : Host × Output :=
  match host.proc with
  | some proc => proc.step cfg codec host fates action
  | none =>
      match action, host.disk.load with
      | .restart, .ok loaded =>
          host.run (Node.newNode loaded) fates fun node =>
            ({ host with proc := node.map fun node => { node := node } }, .nothing)
      | _, _ => (host, .nothing)

end GoRaftKV.Raft
