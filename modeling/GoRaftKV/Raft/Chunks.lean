import GoRaftKV.Raft.Accepting
import GoRaftKV.Raft.HostRuns

namespace GoRaftKV.Raft

open Storage Library Program

/-- Where a `sendSnapshot` call stands: about to send the chunk at `offset`, or back at its
caller. -/
inductive Transfer where
  | sending (offset : Nat)
  | returned (acked : Bool)
  deriving DecidableEq

namespace Stream

def total (stream : Stream) (codec : SnapshotCodec) : Nat :=
  (codec.marshal stream.snapshot.data).length

def finish (stream : Stream) (codec : SnapshotCodec) (offset : Nat) : Nat :=
  min (offset + stream.chunkSize) (stream.total codec)

/-- What the loop of `sendSnapshot` makes of the answer to its chunk at `offset`. `leads` is the
result of its locked check. -/
def resume (stream : Stream) (codec : SnapshotCodec) (offset : Nat) (leads : Bool)
    (resp : InstallSnapshotResponse) : Transfer :=
  let done := (stream.chunk codec offset).done
  if leads = false then .returned false
  else if resp.success = false then
    if resp.bytesReceived = offset ∧ done = false then .returned false
    else if stream.total codec < resp.bytesReceived then .returned false
    else .sending resp.bytesReceived
  else if done = true then .returned true
  else .sending (stream.finish codec offset)

/-- `sendSnapshot` after a number of RPCs, on a leader that keeps its role and its term. -/
def sendSnapshot (stream : Stream) (cfg : Config) (codec : SnapshotCodec) (leader : Node)
    (answers : Nat → InstallSnapshotResponse) : Nat → Transfer
  | 0 => .sending 0
  | rpcs + 1 =>
      match stream.sendSnapshot cfg codec leader answers rpcs with
      | .sending offset =>
          let leads := (leader.sendSnapshotReply cfg stream.term (answers rpcs)).value.2
          stream.resume codec offset leads (answers rpcs)
      | .returned acked => .returned acked

variable {stream : Stream} {cfg : Config} {codec : SnapshotCodec} {leader : Node}
  {answers : Nat → InstallSnapshotResponse} {offset : Nat}

theorem chunk_done : (stream.chunk codec offset).done = true ↔
    stream.finish codec offset = stream.total codec := by
  simp [chunk, finish, total]

theorem chunk_ends (bound : offset ≤ stream.total codec) :
    offset + (stream.chunk codec offset).data.length = stream.finish codec offset := by
  simp only [total] at bound
  simp only [chunk, finish, total, List.length_drop, List.length_take]
  omega

theorem resume_bound {leads : Bool} {resp : InstallSnapshotResponse} {next : Nat}
    (going : stream.resume codec offset leads resp = .sending next) :
    next ≤ stream.total codec := by
  unfold resume at going
  simp only at going
  split at going
  · cases going
  split at going
  · split at going
    · cases going
    split at going
    · cases going
    · rename_i within
      cases going
      omega
  split at going
  · cases going
  · cases going
    exact min_le_right _ _

theorem sending_bound {rpcs : Nat}
    (sending : stream.sendSnapshot cfg codec leader answers rpcs = .sending offset) :
    offset ≤ stream.total codec := by
  cases rpcs with
  | zero =>
      cases sending
      exact Nat.zero_le _
  | succ rpcs =>
      simp only [sendSnapshot] at sending
      split at sending
      · exact resume_bound sending
      · cases sending

theorem reply_leads {resp : InstallSnapshotResponse}
    (leads : (leader.sendSnapshotReply cfg stream.term resp).value.2 = true) :
    resp.term ≤ stream.term := by
  unfold Node.sendSnapshotReply at leads
  split at leads
  · simp only [value_bind] at leads
    cases leads
  · rename_i unsurpassed
    have same : leader.currentTerm = stream.term := (of_decide_eq_true leads).2
    omega

end Stream

def Completes (fates : List Fate) : Prop := ∀ fate ∈ fates, fate = .ok

def Action.handlesChunk : Action → Bool
  | .installSnapshot _ _ | .installDecoded => true
  | _ => false

def Action.stops : Action → Bool
  | .stop | .crash | .restart => true
  | _ => false

namespace Host

/-- The follower answers the chunk `req`, with any other events before it takes the request up and
while it decodes the body. -/
inductive Serves (cfg : Config) (codec : SnapshotCodec) (req : InstallSnapshotRequest) (host : Host)
    (resp : InstallSnapshotResponse) : Host → Prop
  | answered (before : Host) (fates : List Fate) (call : Nat)
      (others : Run cfg codec (fun _ _ _ => True) host before)
      (answer : (before.step cfg codec fates (.installSnapshot call req)).2 = .snapshot call resp) :
      Serves cfg codec req host resp (before.step cfg codec fates (.installSnapshot call req)).1
  | decoded (before between : Host) (fates last : List Fate) (call : Nat) (p : Proc) (body : Bytes)
      (others : Run cfg codec (fun _ _ _ => True) host before)
      (taken : (before.step cfg codec fates (.installSnapshot call req)).1.proc = some p)
      (held : p.persistMu = .decoding call req body)
      (meanwhile : Run cfg codec (fun _ _ _ => True)
        (before.step cfg codec fates (.installSnapshot call req)).1 between)
      (answer : (between.step cfg codec last .installDecoded).2 = .snapshot call resp) :
      Serves cfg codec req host resp (between.step cfg codec last .installDecoded).1

/-- An event of the follower that handles no chunk, neither stops nor restarts it, and whose store
calls all complete. -/
def Aside (_ : Host) (fates : List Fate) (action : Action) : Prop :=
  action.handlesChunk = false ∧ action.stops = false ∧ Completes fates

/-- The follower answers the chunk `req` unhindered: it is up and running, knows the sender, its
storage works, it handles no other chunk in the meantime, and the body it decodes is readable. It
takes the chunk up when `snapshotPersistMu` is free. -/
inductive Heeds (cfg : Config) (codec : SnapshotCodec) (req : InstallSnapshotRequest) (host : Host)
    (resp : InstallSnapshotResponse) : Host → Prop
  | answered (before : Host) (fates : List Fate) (call : Nat) (p : Proc)
      (others : Run cfg codec Aside host before) (live : before.proc = some p)
      (idle : p.persistMu = .free) (running : p.node.stopped = false)
      (sound : p.node.storageFatal = false)
      (known : cfg.isKnownRemotePeerLocked req.leaderID = true) (completes : Completes fates)
      (answer : (before.step cfg codec fates (.installSnapshot call req)).2 = .snapshot call resp) :
      Heeds cfg codec req host resp (before.step cfg codec fates (.installSnapshot call req)).1
  | decoded (before between : Host) (fates last : List Fate) (call : Nat) (p q : Proc)
      (body : Bytes) (others : Run cfg codec Aside host before) (live : before.proc = some p)
      (idle : p.persistMu = .free) (running : p.node.stopped = false)
      (sound : p.node.storageFatal = false)
      (known : cfg.isKnownRemotePeerLocked req.leaderID = true) (completes : Completes fates)
      (taken : (before.step cfg codec fates (.installSnapshot call req)).1.proc = some q)
      (held : q.persistMu = .decoding call req body) (readable : codec.decodeBody body ≠ none)
      (meanwhile : Run cfg codec Aside (before.step cfg codec fates (.installSnapshot call req)).1
        between)
      (finishes : Completes last)
      (answer : (between.step cfg codec last .installDecoded).2 = .snapshot call resp) :
      Heeds cfg codec req host resp (between.step cfg codec last .installDecoded).1

end Host

namespace Node

/-- The offset at which the node goes on with the stream of `req`. -/
def expected (n : Node) (req : InstallSnapshotRequest) : Nat :=
  match n.pendingSnapshot with
  | some progress => if progress.matches req = true then progress.buffer.length else 0
  | none => 0

/-- A chunk of this stream at `offset` is welcome: it fits the buffer, or the node has already
committed what the snapshot holds. -/
def Awaits (n : Node) (req : InstallSnapshotRequest) (offset : Nat) : Prop :=
  req.lastIncludedIndex ≤ n.commitIndex ∨ offset = n.expected req

variable {cfg : Config} {codec : SnapshotCodec} {n : Node} {req : InstallSnapshotRequest}

/-- What the node answers to a chunk, and what it waits for afterwards. -/
inductive Collects (n : Node) (req : InstallSnapshotRequest) : Node × InstallProgress → Prop
  | covered (m : Node) (committed : req.lastIncludedIndex ≤ n.commitIndex)
      (commit : m.commitIndex = n.commitIndex) :
      Collects n req (m, .answer { term := n.currentTerm, success := true })
  | refused (m : Node) (fresh : n.commitIndex < req.lastIncludedIndex)
      (gap : req.offset ≠ n.expected req) (pending : m.pendingSnapshot = n.pendingSnapshot) :
      Collects n req (m, .answer { term := n.currentTerm, bytesReceived := n.expected req })
  | extended (m : Node) (progress : SnapshotProgress) (fits : req.offset = n.expected req)
      (more : req.done = false) (same : progress.matches req = true)
      (length : progress.buffer.length = req.offset + req.data.length)
      (pending : m.pendingSnapshot = some progress) :
      Collects n req (m, .answer { term := n.currentTerm, success := true,
                                   bytesReceived := progress.buffer.length })
  | complete (m : Node) (progress : SnapshotProgress) (last : req.done = true)
      (same : progress.matches req = true) (pending : m.pendingSnapshot = some progress) :
      Collects n req (m, .decode progress.buffer)

theorem receiveChunk_collects {progress : SnapshotProgress} (leaderID : NodeId)
    (fresh : n.commitIndex < req.lastIncludedIndex) (same : progress.matches req = true)
    (length : progress.buffer.length = n.expected req)
    (kept : req.offset ≠ progress.buffer.length → n.pendingSnapshot = some progress) :
    Collects n req (receiveChunk { n with leaderID := leaderID } progress req) := by
  unfold receiveChunk
  split
  · rename_i gap
    have refused :=
      Collects.refused { n with leaderID := leaderID, pendingSnapshot := some progress } fresh
        (length ▸ gap) (kept gap).symm
    rw [length]
    exact refused
  · rename_i fits
    push Not at fits
    have joined : (progress.buffer ++ req.data).length = req.offset + req.data.length := by
      rw [List.length_append, fits]
    simp only
    split
    · rename_i more
      exact .extended _ { progress with buffer := progress.buffer ++ req.data } (fits.trans length)
        more same joined rfl
    · rename_i last
      exact .complete _ { progress with buffer := progress.buffer ++ req.data }
        (Bool.eq_true_of_not_eq_false last) same rfl

theorem collectChunk_collects (n : Node) (req : InstallSnapshotRequest) :
    Collects n req (n.collectChunk req) := by
  unfold collectChunk
  simp only
  split
  · rename_i committed
    exact .covered _ committed rfl
  · rename_i beyond
    have fresh : n.commitIndex < req.lastIncludedIndex := Nat.lt_of_not_le beyond
    -- A stream that the buffer does not belong to can only start anew.
    have restarted (pending : n.expected req = 0) : Collects n req
        (if req.offset ≠ 0 then
          ({ n with leaderID := req.leaderID }, .answer { term := n.currentTerm })
        else receiveChunk { n with leaderID := req.leaderID }
          { leaderID := req.leaderID, lastIncludedIndex := req.lastIncludedIndex
            lastIncludedTerm := req.lastIncludedTerm, buffer := [] } req) := by
      split
      · rename_i later
        have refused := Collects.refused { n with leaderID := req.leaderID } fresh
          (pending ▸ later) rfl
        rw [pending] at refused
        exact refused
      · rename_i start
        push Not at start
        apply receiveChunk_collects req.leaderID fresh
        · simp [SnapshotProgress.matches]
        · exact pending.symm
        · exact fun later => absurd start later
    split
    · rename_i progress present
      have present : n.pendingSnapshot = some progress := present
      split
      · rename_i same
        apply receiveChunk_collects req.leaderID fresh same
        · simp [expected, present, same]
        · exact fun _ => present
      · rename_i other
        apply restarted
        simp [expected, present, other]
    · rename_i absent
      have absent : n.pendingSnapshot = none := absent
      apply restarted
      simp [expected, absent]

theorem finishInstall_succeeds {progress : SnapshotProgress} (data : Option KVMap)
    (pending : n.pendingSnapshot = some progress) (same : progress.matches req = true) :
    (n.finishInstall cfg req progress.buffer data).value.2.success = true := by
  unfold finishInstall
  simp only
  split
  · rfl
  · simp only [pending, same, and_self, if_true, persistInstall, saveHardStateLocked, perform_bind,
      value_call]
    rfl

end Node

namespace Node

/-- The stream in progress is where it was, and nothing has happened that would keep the node from
going on with it. -/
structure Stays (n m : Node) : Prop where
  pending : m.pendingSnapshot = n.pendingSnapshot
  commit : n.commitIndex ≤ m.commitIndex
  running : m.stopped = n.stopped
  sound : m.storageFatal = n.storageFatal

variable {cfg : Config} {n m k : Node}

theorem Stays.refl (n : Node) : n.Stays n := ⟨rfl, le_rfl, rfl, rfl⟩

theorem Stays.trans (first : n.Stays m) (second : m.Stays k) : n.Stays k where
  pending := second.pending.trans first.pending
  commit := first.commit.trans second.commit
  running := second.running.trans first.running
  sound := second.sound.trans first.sound

theorem Stays.awaits (stays : n.Stays m) {req : InstallSnapshotRequest} {offset : Nat}
    (awaits : n.Awaits req offset) : m.Awaits req offset := by
  rcases awaits with committed | fits
  · exact Or.inl (committed.trans stays.commit)
  · right
    rw [fits]
    simp only [expected, stays.pending]

theorem steppedDown_stays (term : Nat) (leaderID : NodeId) :
    n.Stays (n.steppedDown cfg term leaderID) := by
  rw [steppedDown, followerAt_eq]
  split <;> exact ⟨rfl, le_rfl, rfl, rfl⟩

theorem castVote_stays (req : RequestVoteRequest) : n.Stays (n.castVote req).value.1 := by
  unfold castVote
  split
  · exact ⟨rfl, le_rfl, rfl, rfl⟩
  · exact .refl n

theorem handleRequestVote_stays (req : RequestVoteRequest) :
    n.Stays (n.handleRequestVote cfg req).value.1 := by
  unfold handleRequestVote
  split
  · exact .refl n
  split
  · exact .refl n
  split
  · exact .refl n
  split
  · simp only [value_bind, becomeFollowerLocked_value, if_true]
    exact (steppedDown_stays req.term "").trans (castVote_stays req)
  · exact castVote_stays req

theorem commitTo_stays (newCommit : Nat) : n.Stays (n.commitTo newCommit).value.1 := by
  unfold commitTo
  split
  · rename_i later
    exact ⟨rfl, later.le, rfl, rfl⟩
  · exact .refl n

theorem spliceEntries_stays (req : AppendEntriesRequest) :
    n.Stays (n.spliceEntries cfg req).value.1 := by
  rcases @mergeEntriesLocked_memory n req.prevLogIndex req.entries with ⟨log, memory⟩
  unfold spliceEntries
  generalize n.mergeEntriesLocked req.prevLogIndex req.entries = outcome at memory ⊢
  rcases outcome with ⟨merged, merge⟩
  simp only at memory ⊢
  subst memory
  have spliced : n.Stays { n with log := log } := ⟨rfl, le_rfl, rfl, rfl⟩
  split
  · exact spliced
  split
  · exact spliced.trans (commitTo_stays _)
  · exact spliced.trans (commitTo_stays _)

theorem handleAppendEntries_stays (req : AppendEntriesRequest) :
    n.Stays (n.handleAppendEntries cfg req).value.1 := by
  have matched (n : Node) : n.Stays (n.matchEntries cfg req).value.1 := by
    have led : n.Stays { n with leaderID := req.leaderID } := ⟨rfl, le_rfl, rfl, rfl⟩
    unfold matchEntries
    simp only
    split
    · exact led
    split
    · exact led
    · exact led.trans (spliceEntries_stays req)
  unfold handleAppendEntries
  simp only
  split
  · exact .refl n
  split
  · exact .refl n
  split
  · exact .refl n
  split
  · simp only [value_bind, becomeFollowerLocked_value, if_true]
    exact (steppedDown_stays req.term req.leaderID).trans (matched _)
  · exact matched n

theorem advanceCommitLocked_stays : n.Stays (n.advanceCommitLocked cfg).value := by
  unfold advanceCommitLocked
  split
  · exact .refl n
  · rename_i index target
    exact ⟨rfl, (commitTarget_some target).1.le, rfl, rfl⟩

theorem proposeAppend_stays (command : Command) (chan : ChanId) :
    n.Stays (n.proposeAppend cfg command chan).value.1 := by
  unfold proposeAppend
  split
  · exact .refl n
  split
  · exact .refl n
  split
  · exact .refl n
  · have accepted (entry : LogEntry) : n.Stays (n.accepted cfg entry chan) :=
      ⟨rfl, le_rfl, rfl, rfl⟩
    simp only [perform_bind, value_call, if_true, value_bind, pure_eq, value_ret]
    exact (accepted _).trans advanceCommitLocked_stays

theorem startElection_stays : n.Stays (n.startElection cfg).value.1 := by
  unfold startElection
  split
  · exact .refl n
  · exact ⟨rfl, le_rfl, rfl, rfl⟩

theorem becomeLeader_stays (term : Nat) : n.Stays (n.becomeLeader cfg term).value := by
  unfold becomeLeader
  split
  · exact .refl n
  · have crowned (noop : LogEntry) : n.Stays ((n.leading cfg).withNoop cfg noop) :=
      ⟨rfl, le_rfl, rfl, rfl⟩
    simp only [perform_bind, value_call, if_true]
    exact (crowned _).trans advanceCommitLocked_stays

theorem replicateReply_stays (peer : NodeId) (req : AppendEntriesRequest)
    (resp : AppendEntriesResponse) :
    n.Stays (n.replicateReply cfg peer req resp).value.1 := by
  unfold replicateReply
  split
  · simp only [value_bind, becomeFollowerLocked_value]
    exact steppedDown_stays resp.term ""
  split
  · exact .refl n
  split
  · have acknowledged (index : Nat) : n.Stays (n.acknowledge peer index) := ⟨rfl, le_rfl, rfl, rfl⟩
    simp only [value_bind, pure_eq, value_ret]
    exact (acknowledged _).trans advanceCommitLocked_stays
  split
  · exact ⟨rfl, le_rfl, rfl, rfl⟩
  · exact .refl n

theorem sendSnapshotReply_stays (term : Nat) (resp : InstallSnapshotResponse) :
    n.Stays (n.sendSnapshotReply cfg term resp).value.1 := by
  unfold sendSnapshotReply
  split
  · simp only [value_bind, becomeFollowerLocked_value]
    exact steppedDown_stays resp.term ""
  · exact .refl n

theorem compact_stays (snapshot : Snapshot) : n.Stays (n.compact snapshot).value := by
  unfold compact
  split
  · exact .refl n
  · exact ⟨rfl, le_rfl, rfl, rfl⟩

theorem replicateToPeer_stays (peer : NodeId) : n.Stays (n.replicateToPeer cfg peer).1 := by
  rcases replicateToPeer_eq n cfg peer with ⟨⟨nextIndex, same⟩, -⟩
  rw [same]
  exact ⟨rfl, le_rfl, rfl, rfl⟩

theorem snapshotSent_stays (peer : NodeId) (term snapIdx : Nat) :
    n.Stays (n.snapshotSent peer term snapIdx) := by
  unfold snapshotSent
  split <;> exact ⟨rfl, le_rfl, rfl, rfl⟩

theorem applyNext_stays : n.Stays n.applyNext.1 := by
  unfold applyNext
  split
  · exact .refl n
  split <;> exact ⟨rfl, le_rfl, rfl, rfl⟩

theorem applyDone_stays (entry : LogEntry) (result : ApplyResult) :
    n.Stays (n.applyDone cfg entry result).1 := by
  rw [applyDone_eq]
  split <;> exact ⟨rfl, le_rfl, rfl, rfl⟩

end Node

namespace Host

variable {cfg : Config} {codec : SnapshotCodec} {host next : Host} {p q : Proc}
  {req : InstallSnapshotRequest} {resp : InstallSnapshotResponse}

theorem step_answered (live : host.proc = some p) (idle : p.persistMu = .free) (call : Nat)
    {m : Node} (value : (p.node.handleInstallSnapshot cfg req).value = (m, .answer resp)) :
    ∃ disk, host.step cfg codec [] (.installSnapshot call req) =
      ({ host.withNode p m with disk := disk }, .snapshot call resp) := by
  simp only [Host.step, live, Proc.step, idle]
  refine (run_succeeding host _ _).imp fun disk ran => ran.trans ?_
  rw [value]

theorem step_complete (live : host.proc = some p) (idle : p.persistMu = .free) (call : Nat)
    {m : Node} {body : Bytes}
    (value : (p.node.handleInstallSnapshot cfg req).value = (m, .decode body)) :
    ∃ disk, host.step cfg codec [] (.installSnapshot call req) =
      ({ host.withProc { p with node := m, persistMu := .decoding call req body } with
           disk := disk },
        .nothing) := by
  simp only [Host.step, live, Proc.step, idle]
  refine (run_succeeding host _ _).imp fun disk ran => ran.trans ?_
  rw [value]

/-- The process is up, goes on with the stream as before, and decodes what it decoded before. -/
def Stays (p : Proc) (next : Host) : Prop :=
  ∃ q, next.proc = some q ∧ p.node.Stays q.node ∧
    ∀ call req body, p.persistMu = .decoding call req body → q.persistMu = .decoding call req body

theorem run_completes {α : Type} {program : Program StoreOp α} {finish : α → Host × Output}
    {fates : List Fate} (completes : Completes fates) :
    host.run program fates finish = host.run program [] finish := by
  unfold Host.run
  rw [exec_ok program host.disk completes]

theorem step_completes {fates : List Fate} {action : Action} (completes : Completes fates) :
    host.step cfg codec fates action = host.step cfg codec [] action := by
  unfold Host.step
  split
  · cases action <;> simp only [Proc.step, run_completes completes]
  · split
    · exact run_completes completes
    · rfl

theorem run_stays {α : Type} {program : Program StoreOp α} (memory : α → Node)
    {finish : α → Host × Output} (stays : p.node.Stays (memory program.value))
    (proc : ∀ value, (finish value).1.proc = some { p with node := memory value }) :
    Stays p (host.run program [] finish).1 := by
  rcases run_succeeding host program finish with ⟨disk, ran⟩
  rw [ran]
  exact ⟨_, proc _, stays, fun _ _ _ held => held⟩

theorem Aside.stays {fates : List Fate} {action : Action} (aside : host.Aside fates action)
    (live : host.proc = some p) : Stays p (host.step cfg codec fates action).1 := by
  rcases aside with ⟨unrelated, going, completes⟩
  rw [step_completes completes]
  have idle : Stays p host := ⟨p, live, .refl p.node, fun _ _ _ held => held⟩
  have kept {m : Node} (stays : p.node.Stays m) : Stays p (host.withNode p m) :=
    ⟨_, rfl, stays, fun _ _ _ held => held⟩
  simp only [Host.step, live]
  cases action with
  | requestVote req => exact run_stays Prod.fst (Node.handleRequestVote_stays req) fun _ => rfl
  | appendEntries req => exact run_stays Prod.fst (Node.handleAppendEntries_stays req) fun _ => rfl
  | installSnapshot number req => cases unrelated
  | installDecoded => cases unrelated
  | propose command =>
      exact run_stays Prod.fst (Node.proposeAppend_stays command host.chans) fun _ => rfl
  | cancel index chan => exact kept ⟨rfl, le_rfl, rfl, rfl⟩
  | startElection => exact run_stays Prod.fst Node.startElection_stays fun _ => rfl
  | becomeLeader term => exact run_stays id (Node.becomeLeader_stays term) fun _ => rfl
  | stepDown term leaderID =>
      refine run_stays Prod.fst ?_ fun _ => rfl
      rw [Node.becomeFollowerLocked_value]
      exact Node.steppedDown_stays term leaderID
  | replicate peer => exact kept (Node.replicateToPeer_stays peer)
  | replicateReply peer req resp =>
      exact run_stays Prod.fst (Node.replicateReply_stays peer req resp) fun _ => rfl
  | snapshotReply term resp =>
      exact run_stays Prod.fst (Node.sendSnapshotReply_stays term resp) fun _ => rfl
  | snapshotSent peer term snapIdx => exact kept (Node.snapshotSent_stays peer term snapIdx)
  | applyNext =>
      have stays : p.node.Stays p.node.applyNext.1 := Node.applyNext_stays
      simp only [Proc.step]
      split
      · generalize p.node.applyNext = outcome at stays ⊢
        rcases outcome with ⟨m, entry⟩
        cases entry with
        | none => exact kept stays
        | some entry => exact ⟨_, rfl, stays, fun _ _ _ held => held⟩
      · exact idle
  | applyEntry =>
      simp only [Proc.step]
      split
      · exact ⟨_, rfl, ⟨rfl, le_rfl, rfl, rfl⟩, fun _ _ _ held => held⟩
      · exact idle
  | applyDone =>
      simp only [Proc.step]
      split
      · exact ⟨_, rfl, Node.applyDone_stays _ _, fun _ _ _ held => held⟩
      · exact idle
  | persistCheck position =>
      simp only [Proc.step]
      split
      · rename_i free _
        have unheld (lock : PersistLock) (number : Nat) (req : InstallSnapshotRequest)
            (body : Bytes) (held : p.persistMu = .decoding number req body) :
            lock = .decoding number req body := by
          cases free.symm.trans held
        split
        · exact ⟨_, rfl, .refl p.node, unheld _⟩
        · exact ⟨_, rfl, .refl p.node, fun _ _ _ held => held⟩
      · exact idle
  | persistSave =>
      simp only [Proc.step]
      split
      · rename_i snapshot checked
        refine ⟨_, rfl, .refl p.node, fun _ _ _ held => ?_⟩
        cases checked.symm.trans held
      · exact idle
  | persistEnd =>
      simp only [Proc.step]
      split
      · rename_i snapshot saved
        rcases run_succeeding host (p.node.compact snapshot) fun node =>
          (host.withProc { p with node := node, persistMu := .free }, .nothing) with ⟨disk, ran⟩
        rw [ran]
        refine ⟨_, rfl, Node.compact_stays snapshot, fun _ _ _ held => ?_⟩
        cases saved.symm.trans held
      · exact idle
  | stop => cases going
  | crash => cases going
  | restart => cases going

theorem Run.aside (run : Run cfg codec Aside host next) (alive : next.proc = some q) :
    ∃ p, host.proc = some p ∧ p.node.Stays q.node ∧
      ∀ call req body, p.persistMu = .decoding call req body →
        q.persistMu = .decoding call req body := by
  induction run generalizing q with
  | refl => exact ⟨q, alive, .refl q.node, fun _ _ _ held => held⟩
  | @tail middle _ _ step ih =>
      cases step with
      | event fates action aside =>
          cases live : middle.proc with
          | none =>
              have unrestarted : action ≠ .restart := by
                rintro rfl
                cases aside.2.1
              rw [step_down live unrestarted, live] at alive
              cases alive
          | some m =>
              rcases aside.stays live with ⟨other, same, stays, held⟩
              rcases ih live with ⟨p, up, first, kept⟩
              cases same.symm.trans alive
              exact ⟨p, up, first.trans stays, fun call req body decoding =>
                held call req body (kept call req body decoding)⟩

/-- What an unhindered follower makes of a chunk, as far as its sender can tell. -/
def Proceeds (req : InstallSnapshotRequest) (resp : InstallSnapshotResponse) (n m : Node) : Prop :=
  (resp.success = true ∧ (req.done = false → m.Awaits req (req.offset + req.data.length))) ∨
    (resp.success = false ∧ ¬ n.Awaits req req.offset ∧ m.Awaits req resp.bytesReceived)

theorem Proceeds.of_stays {n m k : Node} (proceeds : Proceeds req resp n m) (stays : k.Stays n) :
    Proceeds req resp k m := by
  rcases proceeds with accepted | ⟨refusal, unready, ready⟩
  · exact Or.inl accepted
  · exact Or.inr ⟨refusal, fun awaits => unready (stays.awaits awaits), ready⟩

theorem collects_advances {n m k : Node} (commit : k.commitIndex = n.commitIndex)
    (pending : k.pendingSnapshot = n.pendingSnapshot)
    (collects : Node.Collects k req (m, .answer resp)) (kept : m.commitIndex = k.commitIndex) :
    Proceeds req resp n m := by
  have same : k.expected req = n.expected req := by simp only [Node.expected, pending]
  cases collects with
  | covered _ committed => exact Or.inl ⟨rfl, fun _ => Or.inl (kept ▸ committed)⟩
  | refused _ fresh gap unchanged =>
      refine Or.inr ⟨rfl, ?_, Or.inr ?_⟩
      · rintro (committed | fits)
        · omega
        · exact gap (fits.trans same.symm)
      · simp only [Node.expected, unchanged]
  | extended _ progress fits more matching length held =>
      refine Or.inl ⟨rfl, fun _ => Or.inr ?_⟩
      simp only [Node.expected, held, matching, if_true, length]

theorem hears_collects {n : Node} (hears : n.Hears cfg req.leaderID req.term) :
    ∃ k m progress, k.commitIndex = n.commitIndex ∧ k.pendingSnapshot = n.pendingSnapshot ∧
      m.commitIndex = k.commitIndex ∧ (m.stopped = false ∧ m.storageFatal = false) ∧
      (n.handleInstallSnapshot cfg req).value = (m, progress) ∧
        Node.Collects k req (m, progress) := by
  rcases Node.yielded_eq n cfg req.leaderID hears.current with ⟨_, _, _, _, _, yielded⟩
  have value := hears.handleInstallSnapshot_value
  have collects := Node.collectChunk_collects (n.yielded cfg req.term req.leaderID) req
  rcases Node.collectChunk_eq (n.yielded cfg req.term req.leaderID) req with ⟨pending, memory⟩
  generalize (n.yielded cfg req.term req.leaderID).collectChunk req =
    result at value collects memory
  rcases result with ⟨m, progress⟩
  simp only at memory
  refine ⟨n.yielded cfg req.term req.leaderID, m, progress, ?_, ?_, ?_, ?_, value, collects⟩
  · rw [yielded]
  · rw [yielded]
  · rw [memory]
  · rw [memory, yielded]
    exact ⟨hears.running, hears.sound⟩

theorem step_install (live : host.proc = some q) {call : Nat} {progress : SnapshotProgress}
    (held : q.persistMu = .decoding call req progress.buffer) (running : q.node.stopped = false)
    (sound : q.node.storageFatal = false) (known : cfg.isKnownRemotePeerLocked req.leaderID = true)
    (pending : q.node.pendingSnapshot = some progress) (same : progress.matches req = true)
    (readable : codec.decodeBody progress.buffer ≠ none) (own : resp.term ≤ req.term)
    (answer : (host.step cfg codec [] .installDecoded).2 = .snapshot call resp) :
    resp.success = true ∧ ∃ r, (host.step cfg codec [] .installDecoded).1.proc = some r := by
  rcases Option.ne_none_iff_exists'.mp readable with ⟨data, decoded⟩
  simp only [Host.step, live, Proc.step, held, decoded] at answer ⊢
  split at answer
  · rename_i free
    rcases run_succeeding host (q.node.installDecoded cfg req progress.buffer data) fun value =>
      (host.withProc { q with node := value.1, persistMu := .free }, .snapshot call value.2) with
      ⟨disk, ran⟩
    have hears : q.node.Hears cfg req.leaderID req.term := by
      by_contra deaf
      rw [ran, Node.installDecoded_deaf _ _ deaf] at answer
      cases answer
      exact deaf ⟨running, sound, known, own⟩
    rw [ran, hears.installDecoded_value] at answer
    rw [if_pos free, ran]
    constructor
    · rcases Node.yielded_eq q.node cfg req.leaderID hears.current with ⟨_, _, _, _, _, yielded⟩
      have installed : ((q.node.yielded cfg req.term req.leaderID).finishInstall cfg req
          progress.buffer data).value.2.success = true := by
        apply Node.finishInstall_succeeds data _ same
        rw [yielded]
        exact pending
      cases answer
      exact installed
    · exact ⟨_, rfl⟩
  · cases answer

theorem Heeds.advances_answered (live : host.proc = some p) (idle : p.persistMu = .free)
    (running : p.node.stopped = false) (sound : p.node.storageFatal = false)
    (known : cfg.isKnownRemotePeerLocked req.leaderID = true) {call : Nat}
    (own : resp.term ≤ req.term)
    (answer : (host.step cfg codec [] (.installSnapshot call req)).2 = .snapshot call resp) :
    ∃ q, (host.step cfg codec [] (.installSnapshot call req)).1.proc = some q ∧
      Proceeds req resp p.node q.node := by
  have hears : p.node.Hears cfg req.leaderID req.term := by
    by_contra deaf
    have refused := congrArg value (Node.handleInstallSnapshot_deaf deaf)
    rcases step_answered live idle call refused with ⟨disk, stepped⟩
    rw [stepped] at answer
    cases answer
    exact deaf ⟨running, sound, known, own⟩
  rcases hears_collects hears with ⟨k, m, progress, commit, pending, kept, sane, value, collects⟩
  cases progress with
  | answer other =>
      rcases step_answered live idle call value with ⟨disk, stepped⟩
      rw [stepped] at answer ⊢
      cases answer
      exact ⟨_, rfl, collects_advances commit pending collects kept⟩
  | decode body =>
      rcases step_complete live idle call value with ⟨disk, stepped⟩
      rw [stepped] at answer
      cases answer

theorem taken_pending (live : host.proc = some p) (idle : p.persistMu = .free) {call : Nat}
    {body : Bytes} (taken : (host.step cfg codec [] (.installSnapshot call req)).1.proc = some q)
    (held : q.persistMu = .decoding call req body) :
    q.node.stopped = false ∧ q.node.storageFatal = false ∧ req.done = true ∧
      ∃ progress, progress.buffer = body ∧ progress.matches req = true ∧
        q.node.pendingSnapshot = some progress := by
  have refuted {m : Node} {other : InstallSnapshotResponse} {motive : Prop}
      (value : (p.node.handleInstallSnapshot cfg req).value = (m, .answer other)) : motive := by
    rcases step_answered live idle call value with ⟨disk, stepped⟩
    rw [stepped] at taken
    cases taken
    cases idle.symm.trans held
  have hears : p.node.Hears cfg req.leaderID req.term := by
    by_contra deaf
    exact refuted (congrArg value (Node.handleInstallSnapshot_deaf deaf))
  rcases hears_collects hears with ⟨k, m, progress, commit, pending, kept, sane, value, collects⟩
  cases progress with
  | answer other => exact refuted value
  | decode found =>
      rcases step_complete live idle call value with ⟨disk, stepped⟩
      rw [stepped] at taken
      cases taken
      cases held
      cases collects with
      | complete _ progress last same stored =>
          exact ⟨sane.1, sane.2, last, progress, rfl, same, stored⟩

/-- A follower that is not hindered accepts a chunk it has waited for, and otherwise asks for the
one it waits for. -/
theorem Heeds.advances (heeds : Heeds cfg codec req host resp next) (own : resp.term ≤ req.term) :
    ∃ p q, host.proc = some p ∧ next.proc = some q ∧ Proceeds req resp p.node q.node := by
  cases heeds with
  | answered before fates call p others live idle running sound known completes answer =>
      rw [step_completes completes] at answer ⊢
      rcases others.aside live with ⟨first, up, stays, -⟩
      rcases advances_answered live idle running sound known own answer with ⟨q, alive, proceeds⟩
      exact ⟨first, q, up, alive, proceeds.of_stays stays⟩
  | decoded before between fates last call p q body others live idle running sound known completes
      taken held readable meanwhile finishes answer =>
      rw [step_completes completes] at taken meanwhile
      rw [step_completes finishes] at answer ⊢
      rcases others.aside live with ⟨first, up, -, -⟩
      rcases taken_pending live idle taken held with
        ⟨goes, works, whole, progress, rfl, same, pending⟩
      cases alive : between.proc with
      | none =>
          simp only [Host.step, alive] at answer
          cases answer
      | some r =>
          rcases meanwhile.aside alive with ⟨other, present, stays, holds⟩
          cases taken.symm.trans present
          rcases step_install alive (holds _ _ _ held) (stays.running.trans goes)
            (stays.sound.trans works) known (stays.pending.trans pending) same readable own
            answer with ⟨success, last, ends⟩
          refine ⟨first, last, up, ends, Or.inl ⟨success, fun more => ?_⟩⟩
          cases whole.symm.trans more

end Host

end GoRaftKV.Raft
