import GoRaftKV.Raft.HostVotes
import GoRaftKV.Raft.HostRuns

namespace GoRaftKV.Raft

open Storage Library Program

namespace Node

structure Kept (disk : Disk) (n : Node) : Prop where
  term : (disk.hardState.getD {}).currentTerm = n.currentTerm
  vote : (disk.hardState.getD {}).votedFor = n.votedFor

/-- Once every call has succeeded, the disk has the term and the vote of the memory returned. -/
def Keeps {α : Type} (memory : α → Node) (disk : Disk) (program : Program StoreOp α) : Prop :=
  program.wp store (fun value disk => Kept disk (memory value)) (fun _ => True) disk

variable {cfg : Config} {n m : Node} {disk : Disk}

theorem Kept.same (kept : Kept disk n) (term : m.currentTerm = n.currentTerm)
    (vote : m.votedFor = n.votedFor) : Kept disk m :=
  ⟨kept.term.trans term.symm, kept.vote.trans vote.symm⟩

theorem Keeps.bind {α β : Type} {memory : β → Node} {program : Program StoreOp α}
    {f : α → Program StoreOp β}
    (keeps : program.wp store (fun value disk => Keeps memory disk (f value)) (fun _ => True)
      disk) :
    Keeps memory disk (program >>= f) :=
  wp_bind program f disk keeps

theorem Keeps.save {α : Type} {memory : α → Node} {next : Bool → Program StoreOp α} {commit : Nat}
    (go : ∀ disk, Kept disk m → Keeps memory disk (next true)) :
    Keeps memory disk (call (.saveHardState (m.hardState commit)) next) :=
  ⟨go _ ⟨rfl, rfl⟩, fun _ => trivial⟩

theorem Keeps.write {α : Type} {memory : α → Node} {next : Bool → Program StoreOp α} {op : StoreOp}
    (other : ∀ hs, op ≠ .saveHardState hs) (kept : Kept disk n)
    (go : ∀ disk, Kept disk n → Keeps memory disk (next true)) :
    Keeps memory disk (call op next) := by
  refine ⟨go _ ?_, fun _ => trivial⟩
  have same : (Disk.complete op disk).hardState = disk.hardState := by
    cases op with
    | saveHardState hs => exact absurd rfl (other hs)
    | appendEntries entries =>
        simp only [Disk.complete]
        split <;> rfl
    | replaceEntries | saveSnapshot | rewriteWAL => rfl
  constructor
  · change ((Disk.complete op disk).hardState.getD {}).currentTerm = _
    rw [same, kept.term]
  · change ((Disk.complete op disk).hardState.getD {}).votedFor = _
    rw [same, kept.vote]

theorem becomeFollowerLocked_keeps {term : Nat} {leaderID : NodeId}
    {post : Node × Bool → Disk → Prop} (go : ∀ disk, Kept disk (n.steppedDown cfg term leaderID) →
      post (n.steppedDown cfg term leaderID, true) disk) :
    (n.becomeFollowerLocked cfg term leaderID).wp store post (fun _ => True) disk := by
  unfold steppedDown at go
  simp only [becomeFollowerLocked, persistHardStateLocked, saveHardStateLocked, perform_bind]
  refine ⟨?_, fun _ => trivial⟩
  simp only [if_true]
  split <;> rename_i role
  · rw [if_pos role] at go
    exact go _ ⟨rfl, rfl⟩
  · rw [if_neg role] at go
    exact go _ ⟨rfl, rfl⟩

theorem stepDown_keeps (term : Nat) (leaderID : NodeId) :
    Keeps Prod.fst disk (n.becomeFollowerLocked cfg term leaderID) :=
  becomeFollowerLocked_keeps fun _ kept => kept

theorem castVote_keeps (req : RequestVoteRequest) (kept : Kept disk n) :
    Keeps Prod.fst disk (n.castVote req) := by
  unfold castVote
  split
  · simp only [persistHardStateLocked, saveHardStateLocked, perform_bind]
    exact Keeps.save fun _ saved => saved
  · exact kept

theorem handleRequestVote_keeps (req : RequestVoteRequest) (kept : Kept disk n) :
    Keeps Prod.fst disk (n.handleRequestVote cfg req) := by
  unfold handleRequestVote
  split
  · exact kept
  split
  · exact kept
  split
  · exact kept
  split
  · exact Keeps.bind (becomeFollowerLocked_keeps fun _ saved => castVote_keeps req saved)
  · exact castVote_keeps req kept

theorem commitTo_keeps (newCommit : Nat) (kept : Kept disk n) :
    Keeps Prod.fst disk (n.commitTo newCommit) := by
  unfold commitTo
  split
  · simp only [persistHardStateLocked, saveHardStateLocked, perform_bind]
    exact Keeps.save fun _ saved => saved
  · exact kept

theorem spliceEntries_keeps (req : AppendEntriesRequest) (kept : Kept disk n) :
    Keeps Prod.fst disk (n.spliceEntries cfg req) := by
  rcases mergeEntriesLocked_memory (n := n) req.prevLogIndex req.entries with ⟨log, memory⟩
  unfold spliceEntries
  generalize n.mergeEntriesLocked req.prevLogIndex req.entries = outcome at memory ⊢
  rcases outcome with ⟨merged, merge⟩
  simp only at memory ⊢
  subst memory
  have spliced : Kept disk { n with log := log } := kept.same rfl rfl
  split
  · exact spliced
  split
  · simp only [perform_bind]
    refine Keeps.write ?_ spliced fun _ written => commitTo_keeps _ written
    intro hs
    split <;> exact fun same => by cases same
  · exact commitTo_keeps _ spliced

theorem matchEntries_keeps (req : AppendEntriesRequest) (kept : Kept disk n) :
    Keeps Prod.fst disk (n.matchEntries cfg req) := by
  have led : Kept disk { n with leaderID := req.leaderID } := kept.same rfl rfl
  unfold matchEntries
  simp only
  split
  · exact led
  split
  · exact led
  · exact spliceEntries_keeps req led

theorem handleAppendEntries_keeps (req : AppendEntriesRequest) (kept : Kept disk n) :
    Keeps Prod.fst disk (n.handleAppendEntries cfg req) := by
  unfold handleAppendEntries
  simp only
  split
  · exact kept
  split
  · exact kept
  split
  · exact kept
  split
  · exact Keeps.bind (becomeFollowerLocked_keeps fun _ saved => matchEntries_keeps req saved)
  · exact matchEntries_keeps req kept

theorem collectChunk_kept (req : InstallSnapshotRequest) (kept : Kept disk n) :
    Kept disk (n.collectChunk req).1 := by
  rcases collectChunk_eq n req with ⟨pending, same⟩
  rw [same]
  exact kept.same rfl rfl

theorem handleInstallSnapshot_keeps (req : InstallSnapshotRequest) (kept : Kept disk n) :
    Keeps Prod.fst disk (n.handleInstallSnapshot cfg req) := by
  unfold handleInstallSnapshot
  split
  · exact kept
  split
  · exact kept
  split
  · exact kept
  split
  · exact Keeps.bind (becomeFollowerLocked_keeps fun _ saved => collectChunk_kept req saved)
  · exact collectChunk_kept req kept

theorem finishInstall_keeps (req : InstallSnapshotRequest) (body : Bytes) (data : Option KVMap)
    (kept : Kept disk n) : Keeps Prod.fst disk (n.finishInstall cfg req body data) := by
  have led : Kept disk { n with leaderID := req.leaderID } := kept.same rfl rfl
  unfold finishInstall
  simp only
  split
  · exact kept.same rfl rfl
  split
  · exact led
  split
  · simp only [persistInstall, saveHardStateLocked, perform_bind]
    refine Keeps.write (fun _ same => by cases same) led fun _ first => ?_
    refine Keeps.write (fun _ same => by cases same) first fun _ second => ?_
    exact Keeps.save fun _ saved => saved.same rfl rfl
  · exact led

theorem installDecoded_keeps (req : InstallSnapshotRequest) (body : Bytes) (data : Option KVMap)
    (kept : Kept disk n) : Keeps Prod.fst disk (n.installDecoded cfg req body data) := by
  have cleared : Kept disk { n with pendingSnapshot := none } := kept.same rfl rfl
  unfold installDecoded
  simp only
  split
  · exact cleared
  split
  · exact cleared
  split
  · exact cleared
  split
  · exact Keeps.bind (becomeFollowerLocked_keeps fun _ saved =>
      finishInstall_keeps req body data saved)
  · exact finishInstall_keeps req body data kept

theorem advanceCommitLocked_keeps (kept : Kept disk n) :
    Keeps id disk (n.advanceCommitLocked cfg) := by
  unfold advanceCommitLocked
  split
  · exact kept
  · simp only [persistHardStateLocked, saveHardStateLocked, perform_bind]
    exact Keeps.save fun _ saved => saved

theorem proposeAppend_keeps (command : Command) (chan : ChanId) (kept : Kept disk n) :
    Keeps Prod.fst disk (n.proposeAppend cfg command chan) := by
  unfold proposeAppend
  split
  · exact kept
  split
  · exact kept
  split
  · exact kept
  · simp only [perform_bind]
    refine Keeps.write (fun _ same => by cases same) kept fun _ written => ?_
    have accepted := written.same (m := n.accepted cfg
      { index := n.lastIndexLocked + 1, term := n.currentTerm, command := command } chan) rfl rfl
    exact Keeps.bind (wp_mono _ _ (fun _ _ saved => saved) (fun _ _ => trivial)
      (advanceCommitLocked_keeps accepted))

theorem startElection_keeps (kept : Kept disk n) : Keeps Prod.fst disk (n.startElection cfg) := by
  unfold startElection
  split
  · exact kept
  · simp only [persistHardStateLocked, saveHardStateLocked, perform_bind]
    exact Keeps.save fun _ saved => saved

theorem becomeLeader_keeps (term : Nat) (kept : Kept disk n) :
    Keeps id disk (n.becomeLeader cfg term) := by
  unfold becomeLeader
  split
  · exact kept
  · simp only [perform_bind]
    refine Keeps.write (fun _ same => by cases same) kept fun _ written => ?_
    exact advanceCommitLocked_keeps (written.same rfl rfl)

theorem replicateReply_keeps (peer : NodeId) (req : AppendEntriesRequest)
    (resp : AppendEntriesResponse) (kept : Kept disk n) :
    Keeps Prod.fst disk (n.replicateReply cfg peer req resp) := by
  unfold replicateReply
  split
  · exact Keeps.bind (becomeFollowerLocked_keeps fun _ saved => saved)
  split
  · exact kept
  split
  · have acked := kept.same (m := n.acknowledge peer (req.prevLogIndex + req.entries.length))
      rfl rfl
    exact Keeps.bind (wp_mono _ _ (fun _ _ saved => saved) (fun _ _ => trivial)
      (advanceCommitLocked_keeps acked))
  split
  · exact kept.same rfl rfl
  · exact kept

theorem sendSnapshotReply_keeps (term : Nat) (resp : InstallSnapshotResponse) (kept : Kept disk n) :
    Keeps Prod.fst disk (n.sendSnapshotReply cfg term resp) := by
  unfold sendSnapshotReply
  split
  · exact Keeps.bind (becomeFollowerLocked_keeps fun _ saved => saved)
  · exact kept

theorem compact_keeps (snapshot : Snapshot) (kept : Kept disk n) :
    Keeps id disk (n.compact snapshot) := by
  unfold compact
  split
  · exact kept
  · simp only [perform_bind]
    exact Keeps.write (fun _ same => by cases same) kept fun _ written => written.same rfl rfl

theorem newNode_keeps {loaded : Loaded} (same : disk.hardState.getD {} = loaded.hardState) :
    (newNode loaded).wp store (fun result disk => ∀ n, result = some n → Kept disk n)
    (fun _ => True) disk := by
  have kept : Kept disk (restored loaded) := by
    constructor <;> rw [same] <;> rfl
  have started (disk : Disk) (held : Kept disk (restored loaded)) :
      ∀ n, some (restored loaded) = some n → Kept disk n := by
    intro n present
    cases present
    exact held
  have persisted (disk : Disk) (held : Kept disk (restored loaded)) :
      (if loaded.hardState.commitIndex ≠ (restored loaded).commitIndex then
        (do if ← (restored loaded).persistHardStateLocked then pure (some (restored loaded))
            else pure none)
        else pure (some (restored loaded)) : Program StoreOp (Option Node)).wp store
        (fun result disk => ∀ n, result = some n → Kept disk n) (fun _ => True) disk := by
    split
    · simp only [persistHardStateLocked, saveHardStateLocked, perform_bind]
      exact ⟨started _ ⟨rfl, rfl⟩, fun _ => trivial⟩
    · exact started disk held
  unfold newNode
  simp only
  split
  · simp only [perform_bind]
    exact ⟨persisted _ ⟨kept.term, kept.vote⟩, fun _ => trivial⟩
  · exact persisted disk kept

end Node

namespace Host

def Kept (host : Host) : Prop := ∀ p, host.proc = some p → p.node.Kept host.disk

variable {cfg : Config} {codec : SnapshotCodec} {host : Host} {p : Proc} {fates : List Fate}

theorem run_kept {α : Type} {program : Program StoreOp α} {finish : α → Host × Output}
    (keeps : program.wp store (fun value disk => ∀ q, (finish value).1.proc = some q →
      Node.Kept disk q.node) (fun _ => True) host.disk) (errorless : Errorless fates) :
    (host.run program fates finish).1.Kept := by
  have meets := wp_exec _ _ fates keeps errorless
  unfold run
  generalize program.exec store host.disk fates = ending at meets ⊢
  cases ending with
  | done value disk => exact meets
  | crashed disk =>
      intro q alive
      cases alive

theorem keeping_sections (action : Action) (chans : Nat) (held : Node.Kept host.disk p.node) :
    Node.Sections (fun program memory => Node.Keeps memory host.disk program) cfg chans p.node
      action where
  requestVote req _ := Node.handleRequestVote_keeps req held
  appendEntries req _ := Node.handleAppendEntries_keeps req held
  installSnapshot _ req _ := Node.handleInstallSnapshot_keeps req held
  installDecoded req body data _ := Node.installDecoded_keeps req body data held
  propose command _ := Node.proposeAppend_keeps command chans held
  startElection _ := Node.startElection_keeps held
  becomeLeader term _ := Node.becomeLeader_keeps term held
  stepDown term leaderID _ := Node.stepDown_keeps term leaderID
  replicateReply peer req resp _ := Node.replicateReply_keeps peer req resp held
  snapshotReply term resp _ := Node.sendSnapshotReply_keeps term resp held
  persistSave _ _ := ⟨⟨held.term, held.vote⟩, fun _ => trivial⟩
  persistEnd snapshot _ := Node.compact_keeps snapshot held

theorem procStep_kept (action : Action) (live : host.proc = some p) (kept : host.Kept)
    (errorless : Errorless fates) : (p.step cfg codec host fates action).1.Kept := by
  have held := kept p live
  apply Proc.step_rule live (keeping_sections action host.chans held)
  · intro α program memory finish keeps finished
    apply run_kept _ errorless
    apply wp_mono _ _ _ (fun _ _ => trivial) keeps
    intro value disk saved q alive
    rw [finished value q alive]
    exact saved
  · intro q akin other alive
    cases alive
    exact held.same akin.term akin.vote
  · intro q alive
    cases alive

/-- As long as no store call fails, the disk keeps up with the process. -/
theorem step_kept (action : Action) (kept : host.Kept) (errorless : Errorless fates) :
    (host.step cfg codec fates action).1.Kept := by
  unfold Host.step
  split
  · rename_i p live
    exact procStep_kept action live kept errorless
  · rename_i down
    split
    · rename_i loaded loads
      apply run_kept _ errorless
      apply wp_mono _ _ _ (fun _ _ => trivial) (Node.newNode_keeps (Disk.load_records loads).2.1)
      intro result disk saved q alive
      rcases Option.map_eq_some_iff.mp alive with ⟨n, present, rfl⟩
      exact saved n present
    · exact kept

/-- No store call returns an error, and no election starts at the largest term. -/
def Unwrapping (host : Host) (fates : List Fate) (action : Action) : Prop :=
  Errorless fates ∧
    ∀ p, host.proc = some p → action = .startElection → p.node.currentTerm + 1 < uint64Size

theorem kept_of_run {start final : Host} (run : Run cfg codec Unwrapping start final)
    (down : start.proc = none) : final.Kept := by
  induction run with
  | refl =>
      intro p live
      rw [down] at live
      cases live
  | tail _ step ih =>
      rcases step with ⟨fates, action, admitted⟩
      exact step_kept action ih admitted.1

theorem honors_of_run {first second : Host} (run : Run cfg codec Unwrapping first second)
    {term : Nat} {candidate : NodeId} (named : candidate ≠ "")
    (honors : first.Honors term candidate) :
    second.Honors term candidate := by
  induction run with
  | refl => exact honors
  | tail _ step ih =>
      rcases step with ⟨fates, action, admitted⟩
      exact step_honors admitted.2 named ih

/-- Terms never decrease and a vote is never exchanged within its term, restarts included. -/
theorem terms_of_unwrapping_run {start first second : Host} {p q : Proc} (down : start.proc = none)
    (before : Run cfg codec Unwrapping start first) (after : Run cfg codec Unwrapping first second)
    (early : first.proc = some p) (late : second.proc = some q) :
    p.node.currentTerm ≤ q.node.currentTerm ∧
      (p.node.currentTerm = q.node.currentTerm → p.node.votedFor ≠ "" →
        q.node.votedFor = p.node.votedFor) := by
  have kept := kept_of_run before down p early
  have renews : q.node.vote.Renews p.node.vote := by
    intro term candidate named honors
    have bound : first.Honors term candidate := by
      constructor
      · unfold HardState.Honors
        rw [kept.term, kept.vote]
        exact honors
      · intro other alive
        rw [early] at alive
        cases alive
        exact honors
    exact (honors_of_run after named bound).memory q late
  exact ⟨renews.term_le, renews.vote_kept⟩

def lastTermVote : RequestVoteRequest where
  term := uint64Size - 1
  candidateID := "b"
  lastLogIndex := 0
  lastLogTerm := 0

def votedLast : Host :=
  Host.after (trio "a") SnapshotJson.codec {} [([], .restart), ([], .requestVote lastTermVote)]

theorem terms_of_unwrapping_run_voted : ∃ p q, votedLast.proc = some p ∧
    (votedLast.after (trio "a") SnapshotJson.codec [([], .crash), ([], .restart)]).proc = some q ∧
    p.node.votedFor = "b" ∧ q.node.votedFor = "b" := by
  have before : Run (trio "a") SnapshotJson.codec Unwrapping {} votedLast :=
    run_after (by simp [Unwrapping, Errorless])
  have after : Run (trio "a") SnapshotJson.codec Unwrapping votedLast
      (votedLast.after (trio "a") SnapshotJson.codec [([], .crash), ([], .restart)]) :=
    run_after (by simp [Unwrapping, Errorless])
  refine ⟨_, _, rfl, rfl, rfl, ?_⟩
  exact (terms_of_unwrapping_run rfl before after rfl rfl).2 rfl (by decide)

def Faultless (_ : Host) (fates : List Fate) (_ : Action) : Prop := Errorless fates

/-- The next election after that vote takes the term back to zero. -/
theorem term_wraps : ∃ final p q,
    Run (trio "a") SnapshotJson.codec Faultless {} votedLast ∧ votedLast.proc = some p ∧
    Step (trio "a") SnapshotJson.codec Faultless votedLast final ∧ final.proc = some q ∧
    p.node.currentTerm = uint64Size - 1 ∧ q.node.currentTerm = 0 := by
  refine ⟨_, _, _, run_after ?_, rfl, .event [] .startElection ?_, rfl, rfl, rfl⟩
  · simp [Faultless, Errorless]
  · simp [Faultless, Errorless]

end Host

end GoRaftKV.Raft
