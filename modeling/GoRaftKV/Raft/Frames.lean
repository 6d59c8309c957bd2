import GoRaftKV.Raft.StepRule

namespace GoRaftKV.Raft

open Storage Library Program

def Action.streams : Action → Bool
  | .installSnapshot _ _ => true
  | _ => false

def Action.crowns : Action → Bool
  | .becomeLeader _ => true
  | _ => false

/-- The sections that decide what a leader knows about a peer. -/
def Action.tracks : Action → Bool
  | .becomeLeader _ | .replicate _ | .replicateReply _ _ _ | .snapshotSent _ _ _ => true
  | _ => false

theorem Action.crowns_of_tracks {action : Action} (untracked : action.tracks = false) :
    action.crowns = false := by
  cases action <;> first | rfl | cases untracked

namespace Node

/-- What no section touches but the few that are there to: the buffer of an incoming snapshot, the
replication slots of a leadership and a leader's progress of its peers. -/
structure Frame (cfg : Config) (action : Action) (n m : Node) : Prop where
  pending : action.streams = false →
    m.pendingSnapshot = n.pendingSnapshot ∨ m.pendingSnapshot = none
  leads : action.crowns = false → m.role = .leader →
    n.role = .leader ∧ m.currentTerm = n.currentTerm ∧ m.replicating = n.replicating
  peers : action.tracks = false → m.role = .leader → ∀ peer, peer ≠ cfg.id →
    m.nextIndex peer = n.nextIndex peer ∧ m.matchIndex peer = n.matchIndex peer

variable {cfg : Config} {action : Action} {n m k : Node}

theorem Frame.trans (first : Frame cfg action n m) (second : Frame cfg action m k) :
    Frame cfg action n k where
  pending := by
    intro whole
    rcases second.pending whole with same | none
    · rw [same]
      exact first.pending whole
    · exact Or.inr none
  leads := by
    intro elected leads
    rcases second.leads elected leads with ⟨led, term, slots⟩
    rcases first.leads elected led with ⟨before, earlier, held⟩
    exact ⟨before, term.trans earlier, slots.trans held⟩
  peers := by
    intro untracked leads peer other
    rcases second.leads (Action.crowns_of_tracks untracked) leads with ⟨led, -⟩
    rcases second.peers untracked leads peer other with ⟨next, matched⟩
    rcases first.peers untracked led peer other with ⟨before, earlier⟩
    exact ⟨next.trans before, matched.trans earlier⟩

theorem Frame.same (pending : m.pendingSnapshot = n.pendingSnapshot ∨ m.pendingSnapshot = none)
    (role : m.role = n.role) (term : m.currentTerm = n.currentTerm)
    (slots : m.replicating = n.replicating)
    (peers : ∀ peer, peer ≠ cfg.id →
      m.nextIndex peer = n.nextIndex peer ∧ m.matchIndex peer = n.matchIndex peer) :
    Frame cfg action n m where
  pending := fun _ => pending
  leads := fun _ leads => ⟨role.symm.trans leads, term, slots⟩
  peers := fun _ _ => peers

theorem Frame.refl (n : Node) : Frame cfg action n n :=
  .same (Or.inl rfl) rfl rfl rfl fun _ _ => ⟨rfl, rfl⟩

theorem Frame.follows (pending : m.pendingSnapshot = n.pendingSnapshot ∨ m.pendingSnapshot = none)
    (role : m.role ≠ .leader) : Frame cfg action n m where
  pending := fun _ => pending
  leads := fun _ leads => absurd leads role
  peers := fun _ leads => absurd leads role

theorem Frame.cleared (frame : Frame cfg action n m) :
    Frame cfg action n { m with pendingSnapshot := none } :=
  ⟨fun _ => Or.inr rfl, frame.leads, frame.peers⟩

theorem failed_frame : Frame cfg action n (n.failStorageLocked cfg) :=
  .follows (Or.inl rfl) fun leads => nomatch leads

theorem steppedDown_frame (term : Nat) (leaderID : NodeId) :
    Frame cfg action n (n.steppedDown cfg term leaderID) := by
  apply Frame.follows
  · rw [steppedDown, followerAt_eq]
    split <;> exact Or.inl rfl
  · rw [(steppedDown_eq n cfg term leaderID).1]
    decide

theorem fallen_frame (term : Nat) (leaderID : NodeId) :
    Frame cfg action n ((n.followerAt term leaderID).failStorageLocked cfg) := by
  apply Frame.follows
  · rw [followerAt_eq]
    exact Or.inl rfl
  · intro leads
    cases leads

theorem stepDown_frame {term : Nat} {leaderID : NodeId} {post : Node × Bool → Prop}
    (every : ∀ m saved, Frame cfg action n m → post (m, saved)) :
    (n.becomeFollowerLocked cfg term leaderID).All post := by
  apply becomeFollowerLocked_all
  · exact every _ _ (steppedDown_frame term leaderID)
  · exact every _ _ (fallen_frame term leaderID)

theorem Frame.all {α : Type} {program : Program StoreOp α} {memory : α → Node}
    (first : Frame cfg action n m)
    (every : program.All fun value => Frame cfg action m (memory value)) :
    program.All fun value => Frame cfg action n (memory value) :=
  every.mono fun _ second => first.trans second

theorem castVote_frame (req : RequestVoteRequest) :
    (n.castVote req).All fun r => Frame cfg action n r.1 := by
  unfold castVote
  split
  · simp only [persistHardStateLocked, saveHardStateLocked, perform_bind, all_call]
    exact ⟨.same (Or.inl rfl) rfl rfl rfl fun _ _ => ⟨rfl, rfl⟩, .refl n⟩
  · exact .refl n

theorem handleRequestVote_frame (req : RequestVoteRequest) :
    (n.handleRequestVote cfg req).All fun r => Frame cfg action n r.1 := by
  unfold handleRequestVote
  split
  · exact .refl n
  split
  · exact .refl n
  split
  · exact .refl n
  split
  · refine All.bind (stepDown_frame fun m saved (first : Frame cfg action n m) => ?_)
    cases saved with
    | true => exact first.all (castVote_frame req)
    | false => exact first
  · exact castVote_frame req

theorem commitTo_frame (newCommit : Nat) :
    (n.commitTo newCommit).All fun r => Frame cfg action n r.1 := by
  unfold commitTo
  split
  · simp only [persistHardStateLocked, saveHardStateLocked, perform_bind, all_call]
    exact ⟨.same (Or.inl rfl) rfl rfl rfl fun _ _ => ⟨rfl, rfl⟩, .refl n⟩
  · exact .refl n

theorem spliceEntries_frame (req : AppendEntriesRequest) :
    (n.spliceEntries cfg req).All fun r => Frame cfg action n r.1 := by
  rcases mergeEntriesLocked_memory (n := n) req.prevLogIndex req.entries with ⟨log, memory⟩
  unfold spliceEntries
  generalize n.mergeEntriesLocked req.prevLogIndex req.entries = outcome at memory ⊢
  rcases outcome with ⟨merged, merge⟩
  simp only at memory ⊢
  subst memory
  have spliced : Frame cfg action n { n with log := log } :=
    .same (Or.inl rfl) rfl rfl rfl fun _ _ => ⟨rfl, rfl⟩
  split
  · exact spliced
  split
  · simp only [perform_bind, all_call, if_true]
    exact ⟨spliced.all (commitTo_frame _), failed_frame⟩
  · exact spliced.all (commitTo_frame _)

theorem matchEntries_frame (req : AppendEntriesRequest) :
    (n.matchEntries cfg req).All fun r => Frame cfg action n r.1 := by
  have led : Frame cfg action n { n with leaderID := req.leaderID } :=
    .same (Or.inl rfl) rfl rfl rfl fun _ _ => ⟨rfl, rfl⟩
  unfold matchEntries
  simp only
  split
  · exact led
  split
  · exact led
  · exact led.all (spliceEntries_frame req)

theorem handleAppendEntries_frame (req : AppendEntriesRequest) :
    (n.handleAppendEntries cfg req).All fun r => Frame cfg action n r.1 := by
  unfold handleAppendEntries
  simp only
  split
  · exact .refl n
  split
  · exact .refl n
  split
  · exact .refl n
  split
  · refine All.bind (stepDown_frame fun m saved (first : Frame cfg action n m) => ?_)
    cases saved with
    | true => exact first.all (matchEntries_frame req)
    | false => exact first
  · exact matchEntries_frame req

theorem collectChunk_frame (req : InstallSnapshotRequest) (streams : action.streams = true) :
    Frame cfg action n (n.collectChunk req).1 := by
  rcases collectChunk_eq n req with ⟨pending, same⟩
  rw [same]
  refine ⟨fun whole => ?_, fun _ leads => ⟨leads, rfl, rfl⟩, fun _ _ _ _ => ⟨rfl, rfl⟩⟩
  rw [streams] at whole
  cases whole

theorem handleInstallSnapshot_frame (req : InstallSnapshotRequest)
    (streams : action.streams = true) :
    (n.handleInstallSnapshot cfg req).All fun r => Frame cfg action n r.1 := by
  unfold handleInstallSnapshot
  split
  · exact .refl n
  split
  · exact .refl n
  split
  · exact .refl n
  split
  · refine All.bind (stepDown_frame fun m saved (first : Frame cfg action n m) => ?_)
    cases saved with
    | true => exact first.trans (collectChunk_frame req streams)
    | false => exact first.cleared
  · exact collectChunk_frame req streams

theorem finishInstall_frame (req : InstallSnapshotRequest) (body : Bytes) (data : Option KVMap) :
    (n.finishInstall cfg req body data).All fun r => Frame cfg action n r.1 := by
  have led : Frame cfg action n { n with leaderID := req.leaderID } :=
    .same (Or.inl rfl) rfl rfl rfl fun _ _ => ⟨rfl, rfl⟩
  unfold finishInstall
  simp only
  split
  · exact led.cleared
  split
  · exact led
  split
  · simp only [persistInstall, saveHardStateLocked, perform_bind, all_call, if_true]
    have failed : Frame cfg action n (failStorageLocked
        { n with leaderID := req.leaderID, pendingSnapshot := none } cfg) :=
      led.cleared.trans failed_frame
    exact ⟨⟨⟨.same (Or.inr rfl) rfl rfl rfl fun _ _ => ⟨rfl, rfl⟩, failed⟩, failed⟩, failed⟩
  · exact led

theorem installDecoded_frame (req : InstallSnapshotRequest) (body : Bytes) (data : Option KVMap) :
    (n.installDecoded cfg req body data).All fun r => Frame cfg action n r.1 := by
  have cleared : Frame cfg action n { n with pendingSnapshot := none } := (Frame.refl n).cleared
  unfold installDecoded
  simp only
  split
  · exact cleared
  split
  · exact cleared
  split
  · exact cleared
  split
  · refine All.bind (stepDown_frame fun m saved (first : Frame cfg action n m) => ?_)
    cases saved with
    | true => exact first.all (finishInstall_frame req body data)
    | false => exact first.cleared
  · exact finishInstall_frame req body data

theorem advanceCommitLocked_frame :
    (n.advanceCommitLocked cfg).All fun m => Frame cfg action n m := by
  unfold advanceCommitLocked
  split
  · exact .refl n
  · simp only [persistHardStateLocked, saveHardStateLocked, perform_bind, all_call]
    exact ⟨.same (Or.inl rfl) rfl rfl rfl fun _ _ => ⟨rfl, rfl⟩, failed_frame⟩

theorem proposeAppend_frame (command : Command) (chan : ChanId) :
    (n.proposeAppend cfg command chan).All fun r => Frame cfg action n r.1 := by
  unfold proposeAppend
  split
  · exact .refl n
  split
  · exact .refl n
  split
  · exact .refl n
  · simp only [perform_bind, all_call]
    have accepted : Frame cfg action n (n.accepted cfg
        { index := n.lastIndexLocked + 1, term := n.currentTerm, command := command } chan) :=
      .same (Or.inl rfl) rfl rfl rfl fun peer other =>
        ⟨Function.update_of_ne other _ _, Function.update_of_ne other _ _⟩
    exact ⟨All.bind ((accepted.all advanceCommitLocked_frame).mono fun _ frame => frame),
      failed_frame⟩

theorem startElection_frame : (n.startElection cfg).All fun r => Frame cfg action n r.1 := by
  unfold startElection
  split
  · exact .refl n
  · simp only [persistHardStateLocked, saveHardStateLocked, perform_bind, all_call]
    exact ⟨.follows (Or.inl rfl) (by rintro ⟨⟩),
      .same (Or.inl rfl) rfl rfl rfl fun _ _ => ⟨rfl, rfl⟩⟩

theorem becomeLeader_slots (term : Nat) :
    (n.becomeLeader cfg term).All fun m =>
      m = n ∨ (n.role ≠ .leader ∧ (m.role = .leader → m.replicating = fun _ => false)) := by
  -- A new leader starts with every slot free.
  unfold becomeLeader
  split
  · exact Or.inl rfl
  · rename_i eligible
    push Not at eligible
    have stood : n.role ≠ .leader := by
      rw [eligible.2.1]
      decide
    simp only [perform_bind, all_call]
    constructor
    · exact (@advanceCommitLocked_frame cfg .startElection _).mono fun m frame =>
        Or.inr ⟨stood, fun leads => (frame.leads rfl leads).2.2⟩
    · refine Or.inr ⟨stood, fun leads => ?_⟩
      cases leads

theorem becomeLeader_frame (term : Nat) :
    (n.becomeLeader cfg term).All fun m => Frame cfg (.becomeLeader term) n m := by
  have framed {m : Node} (pending : m.pendingSnapshot = n.pendingSnapshot ∨
      m.pendingSnapshot = none) :
      Frame cfg (.becomeLeader term) n m := by
    refine ⟨fun _ => pending, fun elected => ?_, fun untracked => ?_⟩
    · cases elected
    · cases untracked
  unfold becomeLeader
  split
  · exact .refl n
  · simp only [perform_bind, all_call]
    constructor
    · exact (@advanceCommitLocked_frame cfg .startElection _).mono fun m frame =>
        framed (frame.pending rfl)
    · exact framed (Or.inl rfl)

theorem replicateReply_frame (peer : NodeId) (req : AppendEntriesRequest)
    (resp : AppendEntriesResponse) :
    (n.replicateReply cfg peer req resp).All fun r =>
      Frame cfg (.replicateReply peer req resp) n r.1 := by
  have tracked {m : Node} (pending : m.pendingSnapshot = n.pendingSnapshot) (role : m.role = n.role)
      (term : m.currentTerm = n.currentTerm) (slots : m.replicating = n.replicating) :
      Frame cfg (.replicateReply peer req resp) n m := by
    refine ⟨fun _ => Or.inl pending, fun _ leads => ⟨role.symm.trans leads, term, slots⟩, ?_⟩
    intro untracked
    cases untracked
  unfold replicateReply
  split
  · exact All.bind (stepDown_frame fun m saved frame => frame)
  split
  · exact .refl n
  split
  · have acked : Frame cfg (.replicateReply peer req resp) n
        (n.acknowledge peer (req.prevLogIndex + req.entries.length)) := tracked rfl rfl rfl rfl
    exact All.bind ((acked.all advanceCommitLocked_frame).mono fun _ frame => frame)
  split
  · exact tracked rfl rfl rfl rfl
  · exact .refl n

theorem sendSnapshotReply_frame (term : Nat) (resp : InstallSnapshotResponse) :
    (n.sendSnapshotReply cfg term resp).All fun r => Frame cfg action n r.1 := by
  unfold sendSnapshotReply
  split
  · exact All.bind (stepDown_frame fun m saved frame => frame)
  · exact .refl n

theorem compact_frame (snapshot : Snapshot) :
    (n.compact snapshot).All fun m => Frame cfg action n m := by
  unfold compact
  split
  · exact .refl n
  · simp only [perform_bind, all_call]
    exact ⟨.same (Or.inl rfl) rfl rfl rfl fun _ _ => ⟨rfl, rfl⟩, .refl n⟩

theorem Quiet.frame (quiet : Quiet cfg n action m) : Frame cfg action n m := by
  cases quiet with
  | undecoded => exact (Frame.refl n).cleared
  | replicate peer =>
      rcases replicateToPeer_eq n cfg peer with ⟨⟨nextIndex, same⟩, -⟩
      rw [same]
      refine ⟨fun _ => Or.inl rfl, fun _ leads => ⟨leads, rfl, rfl⟩, fun untracked => ?_⟩
      cases untracked
  | snapshotSent peer term snapIdx =>
      refine ⟨fun _ => ?_, fun _ => ?_, fun untracked => ?_⟩
      · unfold Node.snapshotSent
        split <;> exact Or.inl rfl
      · unfold Node.snapshotSent
        split <;> exact fun leads => ⟨leads, rfl, rfl⟩
      · cases untracked
  | applyNext =>
      unfold Node.applyNext
      split
      · exact .refl n
      split
      · exact .same (Or.inl rfl) rfl rfl rfl fun _ _ => ⟨rfl, rfl⟩
      · exact .refl n
  | applyDone entry result =>
      rw [applyDone_eq]
      split <;> exact .same (Or.inl rfl) rfl rfl rfl fun _ _ => ⟨rfl, rfl⟩
  | stop =>
      unfold Node.stop
      split <;> exact .same (Or.inl rfl) rfl rfl rfl fun _ _ => ⟨rfl, rfl⟩
  | _ => exact .same (Or.inl rfl) rfl rfl rfl fun _ _ => ⟨rfl, rfl⟩

theorem sections_frame (chans : Nat) (n : Node) (action : Action) :
    Sections (fun program memory => program.All fun value => Frame cfg action n (memory value))
      cfg chans n action where
  requestVote := fun req _ => handleRequestVote_frame req
  appendEntries := fun req _ => handleAppendEntries_frame req
  installSnapshot := by
    intro call req same
    apply handleInstallSnapshot_frame
    rw [same]
    rfl
  installDecoded := fun req body data _ => installDecoded_frame req body data
  propose := fun command _ => proposeAppend_frame command chans
  startElection := fun _ => startElection_frame
  becomeLeader := by
    intro term same
    rw [same]
    exact becomeLeader_frame term
  stepDown := fun _ _ _ => stepDown_frame fun _ _ frame => frame
  replicateReply := by
    intro peer req resp same
    rw [same]
    exact replicateReply_frame peer req resp
  snapshotReply := fun term resp _ => sendSnapshotReply_frame term resp
  persistSave := fun _ _ _ => .refl n
  persistEnd := fun snapshot _ => compact_frame snapshot

end Node

/-- Every event of a running process keeps the frame. -/
theorem Host.step_frame {cfg : Config} {codec : SnapshotCodec} {host : Host} {p q : Proc}
    {fates : List Fate} {action : Action} (live : host.proc = some p)
    (alive : (host.step cfg codec fates action).1.proc = some q) :
    Node.Frame cfg action p.node q.node := by
  have framed : ∀ q, (p.step cfg codec host fates action).1.proc = some q →
      Node.Frame cfg action p.node q.node := by
    refine @Proc.step_sections cfg codec host p fates action _
      (fun next => ∀ q, next.proc = some q → Node.Frame cfg action p.node q.node) live
      (Node.sections_frame host.chans p.node action) ?_ ?_ ?_
    · intro α program memory finish every made q alive
      rcases run_alive every alive with ⟨value, frame, same, -⟩
      rw [made value q same]
      exact frame
    · intro q quiet r alive
      cases alive
      exact quiet.frame
    · intro q alive
      cases alive
  simp only [Host.step, live] at alive
  exact framed q alive

end GoRaftKV.Raft
