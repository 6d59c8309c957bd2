import GoRaftKV.Raft.Cluster
import GoRaftKV.Raft.HostRuns
import GoRaftKV.Raft.StepRule

namespace GoRaftKV.Raft

open Storage Library Program

namespace Node

def Fallen (n : Node) : Prop := n.storageFatal = true → n.role = .follower

/-- The failure of the storage stays, and whoever has it follows. -/
structure Seals (n m : Node) : Prop where
  stays : n.storageFatal = true → m.storageFatal = true
  falls : m.Fallen

variable {cfg : Config} {n m k : Node}

theorem Seals.trans (first : Seals n m) (second : Seals m k) : Seals n k :=
  ⟨fun fatal => second.stays (first.stays fatal), second.falls⟩

theorem Fallen.seals (fallen : n.Fallen) (role : m.role = n.role)
    (fatal : m.storageFatal = n.storageFatal) : Seals n m := by
  refine ⟨fun failed => fatal.trans failed, fun failed => ?_⟩
  rw [role]
  exact fallen (fatal.symm.trans failed)

theorem seals_follower (role : m.role = .follower)
    (stays : n.storageFatal = true → m.storageFatal = true) :
    Seals n m := ⟨stays, fun _ => role⟩

theorem failStorageLocked_seals : Seals n (n.failStorageLocked cfg) :=
  seals_follower rfl fun _ => rfl

theorem steppedDown_seals (term : Nat) (leaderID : NodeId) :
    Seals n (n.steppedDown cfg term leaderID) := by
  apply seals_follower (steppedDown_eq n cfg term leaderID).1
  intro fatal
  rw [steppedDown, followerAt_eq]
  split <;> exact fatal

theorem becomeFollowerLocked_sealed {term : Nat} {leaderID : NodeId} {post : Node × Bool → Prop}
    (every : ∀ m saved, Seals n m → post (m, saved)) :
    (n.becomeFollowerLocked cfg term leaderID).All post := by
  apply becomeFollowerLocked_all
  · exact every _ _ (steppedDown_seals term leaderID)
  · exact every _ _ (seals_follower rfl fun _ => rfl)

theorem castVote_sealed (req : RequestVoteRequest) (fallen : n.Fallen) :
    (n.castVote req).All fun r => Seals n r.1 := by
  unfold castVote
  split
  · simp only [persistHardStateLocked, saveHardStateLocked, perform_bind, all_call]
    exact ⟨fallen.seals rfl rfl, fallen.seals rfl rfl⟩
  · exact fallen.seals rfl rfl

theorem handleRequestVote_sealed (req : RequestVoteRequest) (fallen : n.Fallen) :
    (n.handleRequestVote cfg req).All fun r => Seals n r.1 := by
  unfold handleRequestVote
  split
  · exact fallen.seals rfl rfl
  split
  · exact fallen.seals rfl rfl
  split
  · exact fallen.seals rfl rfl
  split
  · refine All.bind (becomeFollowerLocked_sealed fun m saved first => ?_)
    cases saved with
    | true => exact (castVote_sealed req first.falls).mono fun _ second => first.trans second
    | false => exact first
  · exact castVote_sealed req fallen

theorem commitTo_sealed (newCommit : Nat) (fallen : n.Fallen) :
    (n.commitTo newCommit).All fun r => Seals n r.1 := by
  unfold commitTo
  split
  · simp only [persistHardStateLocked, saveHardStateLocked, perform_bind, all_call]
    exact ⟨fallen.seals rfl rfl, fallen.seals rfl rfl⟩
  · exact fallen.seals rfl rfl

theorem spliceEntries_sealed (req : AppendEntriesRequest) (fallen : n.Fallen) :
    (n.spliceEntries cfg req).All fun r => Seals n r.1 := by
  rcases mergeEntriesLocked_memory (n := n) req.prevLogIndex req.entries with ⟨log, memory⟩
  unfold spliceEntries
  generalize n.mergeEntriesLocked req.prevLogIndex req.entries = outcome at memory ⊢
  rcases outcome with ⟨merged, merge⟩
  simp only at memory ⊢
  subst memory
  have spliced : Seals n { n with log := log } := fallen.seals rfl rfl
  split
  · exact spliced
  split
  · simp only [perform_bind, all_call, if_true]
    exact ⟨(commitTo_sealed _ spliced.falls).mono fun _ second => spliced.trans second,
      seals_follower rfl fun _ => rfl⟩
  · exact (commitTo_sealed _ spliced.falls).mono fun _ second => spliced.trans second

theorem matchEntries_sealed (req : AppendEntriesRequest) (fallen : n.Fallen) :
    (n.matchEntries cfg req).All fun r => Seals n r.1 := by
  have led : Seals n { n with leaderID := req.leaderID } := fallen.seals rfl rfl
  unfold matchEntries
  simp only
  split
  · exact led
  split
  · exact led
  · exact (spliceEntries_sealed req led.falls).mono fun _ second => led.trans second

theorem handleAppendEntries_sealed (req : AppendEntriesRequest) (fallen : n.Fallen) :
    (n.handleAppendEntries cfg req).All fun r => Seals n r.1 := by
  unfold handleAppendEntries
  simp only
  split
  · exact fallen.seals rfl rfl
  split
  · exact fallen.seals rfl rfl
  split
  · exact fallen.seals rfl rfl
  split
  · refine All.bind (becomeFollowerLocked_sealed fun m saved first => ?_)
    cases saved with
    | true => exact (matchEntries_sealed req first.falls).mono fun _ second => first.trans second
    | false => exact first
  · exact matchEntries_sealed req fallen

theorem collectChunk_sealed (req : InstallSnapshotRequest) (fallen : n.Fallen) :
    Seals n (n.collectChunk req).1 := by
  rcases collectChunk_eq n req with ⟨pending, same⟩
  rw [same]
  exact fallen.seals rfl rfl

theorem handleInstallSnapshot_sealed (req : InstallSnapshotRequest) (fallen : n.Fallen) :
    (n.handleInstallSnapshot cfg req).All fun r => Seals n r.1 := by
  unfold handleInstallSnapshot
  split
  · exact fallen.seals rfl rfl
  split
  · exact fallen.seals rfl rfl
  split
  · exact fallen.seals rfl rfl
  split
  · refine All.bind (becomeFollowerLocked_sealed fun m saved first => ?_)
    cases saved with
    | true => exact first.trans (collectChunk_sealed req first.falls)
    | false => exact first.trans (first.falls.seals rfl rfl)
  · exact collectChunk_sealed req fallen

theorem finishInstall_sealed (req : InstallSnapshotRequest) (body : Bytes) (data : Option KVMap)
    (fallen : n.Fallen) : (n.finishInstall cfg req body data).All fun r => Seals n r.1 := by
  unfold finishInstall
  simp only
  split
  · exact fallen.seals rfl rfl
  split
  · exact fallen.seals rfl rfl
  split
  · simp only [persistInstall, saveHardStateLocked, perform_bind, all_call, if_true]
    exact ⟨⟨⟨fallen.seals rfl rfl, seals_follower rfl fun _ => rfl⟩, seals_follower rfl fun _ =>
      rfl⟩, seals_follower rfl fun _ => rfl⟩
  · exact fallen.seals rfl rfl

theorem installDecoded_sealed (req : InstallSnapshotRequest) (body : Bytes) (data : Option KVMap)
    (fallen : n.Fallen) : (n.installDecoded cfg req body data).All fun r => Seals n r.1 := by
  unfold installDecoded
  simp only
  split
  · exact fallen.seals rfl rfl
  split
  · exact fallen.seals rfl rfl
  split
  · exact fallen.seals rfl rfl
  split
  · refine All.bind (becomeFollowerLocked_sealed fun m saved first => ?_)
    cases saved with
    | true =>
        exact (finishInstall_sealed req body data first.falls).mono fun _ second =>
          first.trans second
    | false => exact first.trans (first.falls.seals rfl rfl)
  · exact finishInstall_sealed req body data fallen

theorem advanceCommitLocked_sealed (fallen : n.Fallen) :
    (n.advanceCommitLocked cfg).All fun m => Seals n m := by
  unfold advanceCommitLocked
  split
  · exact fallen.seals rfl rfl
  · simp only [persistHardStateLocked, saveHardStateLocked, perform_bind, all_call]
    exact ⟨fallen.seals rfl rfl, failStorageLocked_seals⟩

theorem proposeAppend_sealed (command : Command) (chan : ChanId) (fallen : n.Fallen) :
    (n.proposeAppend cfg command chan).All fun r => Seals n r.1 := by
  unfold proposeAppend
  split
  · exact fallen.seals rfl rfl
  split
  · exact fallen.seals rfl rfl
  split
  · exact fallen.seals rfl rfl
  · simp only [perform_bind, all_call]
    refine ⟨?_, failStorageLocked_seals⟩
    have accepted : Seals n (n.accepted cfg
        { index := n.lastIndexLocked + 1, term := n.currentTerm, command := command } chan) :=
      fallen.seals rfl rfl
    exact All.bind ((advanceCommitLocked_sealed accepted.falls).mono fun _ second =>
      accepted.trans second)

theorem startElection_sealed (fallen : n.Fallen) :
    (n.startElection cfg).All fun r => Seals n r.1 := by
  unfold startElection
  split
  · exact fallen.seals rfl rfl
  · rename_i eligible
    push Not at eligible
    simp only [persistHardStateLocked, saveHardStateLocked, perform_bind, all_call]
    refine ⟨⟨fun fatal => fatal, fun fatal => absurd fatal eligible.2.2⟩, fallen.seals rfl rfl⟩

theorem becomeLeader_sealed (term : Nat) (fallen : n.Fallen) :
    (n.becomeLeader cfg term).All fun m => Seals n m := by
  unfold becomeLeader
  split
  · exact fallen.seals rfl rfl
  · rename_i eligible
    push Not at eligible
    -- A candidate's storage has not failed, so that its promotion breaks nothing.
    have sound : ¬ n.storageFatal = true := by
      intro fatal
      have follows := fallen fatal
      rw [eligible.2.1] at follows
      cases follows
    have started : Seals n ((n.leading cfg).withNoop cfg
        { index := n.lastIndexLocked + 1, term := term, command := { op := .noop } }) :=
      ⟨fun fatal => fatal, fun fatal => absurd fatal sound⟩
    simp only [perform_bind, all_call]
    exact ⟨(advanceCommitLocked_sealed started.falls).mono fun _ second => started.trans second,
      seals_follower rfl fun _ => rfl⟩

theorem replicateReply_sealed (peer : NodeId) (req : AppendEntriesRequest)
    (resp : AppendEntriesResponse) (fallen : n.Fallen) :
    (n.replicateReply cfg peer req resp).All fun r => Seals n r.1 := by
  unfold replicateReply
  split
  · exact All.bind (becomeFollowerLocked_sealed fun m _ first => first)
  split
  · exact fallen.seals rfl rfl
  split
  · have acked : Seals n (n.acknowledge peer (req.prevLogIndex + req.entries.length)) :=
      fallen.seals rfl rfl
    exact All.bind ((advanceCommitLocked_sealed acked.falls).mono fun _ second =>
      acked.trans second)
  split <;> exact fallen.seals rfl rfl

theorem sendSnapshotReply_sealed (term : Nat) (resp : InstallSnapshotResponse) (fallen : n.Fallen) :
    (n.sendSnapshotReply cfg term resp).All fun r => Seals n r.1 := by
  unfold sendSnapshotReply
  split
  · exact All.bind (becomeFollowerLocked_sealed fun m _ first => first)
  · exact fallen.seals rfl rfl

theorem compact_sealed (snapshot : Snapshot) (fallen : n.Fallen) :
    (n.compact snapshot).All fun m => Seals n m := by
  unfold compact
  split
  · exact fallen.seals rfl rfl
  · simp only [perform_bind, all_call]
    exact ⟨fallen.seals rfl rfl, fallen.seals rfl rfl⟩

theorem newNode_sound (loaded : Loaded) :
    (newNode loaded).All fun result => ∀ n, result = some n → n.storageFatal = false := by
  apply (newNode_does loaded).all.mono
  intro result restored n present
  rw [restored n present]
  rfl

end Node

namespace Host

variable {cfg : Config} {codec : SnapshotCodec} {host : Host} {p q : Proc} {fates : List Fate}

def Fallen (host : Host) : Prop := ∀ p, host.proc = some p → p.node.Fallen

theorem sealing_sections (action : Action) (chans : Nat) (fallen : p.node.Fallen) :
    Node.Sections (fun program memory => program.All fun value => Node.Seals p.node (memory value))
      cfg chans p.node action where
  requestVote req _ := Node.handleRequestVote_sealed req fallen
  appendEntries req _ := Node.handleAppendEntries_sealed req fallen
  installSnapshot _ req _ := Node.handleInstallSnapshot_sealed req fallen
  installDecoded req body data _ := Node.installDecoded_sealed req body data fallen
  propose command _ := Node.proposeAppend_sealed command chans fallen
  startElection _ := Node.startElection_sealed fallen
  becomeLeader term _ := Node.becomeLeader_sealed term fallen
  stepDown _ _ _ := Node.becomeFollowerLocked_sealed fun _ _ sealed => sealed
  replicateReply peer req resp _ := Node.replicateReply_sealed peer req resp fallen
  snapshotReply term resp _ := Node.sendSnapshotReply_sealed term resp fallen
  persistSave _ _ := fun _ => fallen.seals rfl rfl
  persistEnd snapshot _ := Node.compact_sealed snapshot fallen

/-- The process that is left, if any, keeps a failure of `p`. -/
def Sealed (p : Proc) (after : Host) : Prop := ∀ q, after.proc = some q → Node.Seals p.node q.node

theorem procStep_sealed (action : Action) (live : host.proc = some p) (fallen : p.node.Fallen) :
    Sealed p (p.step cfg codec host fates action).1 := by
  apply Proc.step_rule live (sealing_sections action host.chans fallen)
  · intro α program memory finish every finished q alive
    rcases run_alive every alive with ⟨value, sealed, same, -⟩
    rw [finished value q same]
    exact sealed
  · intro q akin other alive
    cases alive
    exact fallen.seals akin.role akin.fatal
  · intro q alive
    cases alive

theorem step_fallen (action : Action) (fallen : host.Fallen) :
    (host.step cfg codec fates action).1.Fallen := by
  intro q alive
  unfold Host.step at alive
  split at alive
  · rename_i p live
    exact (procStep_sealed action live (fallen p live) q alive).falls
  · rename_i down
    split at alive
    · rename_i loaded loads
      rcases run_alive (Node.newNode_sound loaded) alive with ⟨value, sound, present, -⟩
      rcases Option.map_eq_some_iff.mp present with ⟨n, found, rfl⟩
      intro fatal
      cases (sound n found).symm.trans fatal
    · rw [down] at alive
      cases alive

end Host

/-- Neither a vote, nor an acknowledgement, nor an accepted proposal. -/
def Output.Refuses : Output → Prop
  | .vote resp => resp.voteGranted = false
  | .append resp => resp.success = false
  | .snapshot _ resp => resp.success = false
  | .proposed _ result => ∀ entry, result ≠ .ok entry
  | _ => True

namespace Host

variable {cfg : Config} {codec : SnapshotCodec} {host : Host} {p q : Proc} {fates : List Fate}

end Host

end GoRaftKV.Raft
