import GoRaftKV.Raft.StepRule
import GoRaftKV.Raft.HostRuns
import GoRaftKV.Storage.Recovery

namespace GoRaftKV.Raft

open Storage Library Program

namespace Node

variable {n : Node} {cfg : Config}

theorem becomeFollowerLocked_ends {term : Nat} {leaderID : NodeId}
    {post : Node × Bool → Disk → Prop}
    (success : ∀ disk, post (n.steppedDown cfg term leaderID, true) disk)
    (failure : ∀ disk, post ((n.followerAt term leaderID).failStorageLocked cfg, false) disk)
    (disk : Disk) : (n.becomeFollowerLocked cfg term leaderID).Ends store post disk := by
  unfold steppedDown at success
  simp only [becomeFollowerLocked, persistHardStateLocked, saveHardStateLocked, perform_bind]
  refine ⟨?_, fun reached => failure _⟩
  simp only [if_true]
  split <;> rename_i role
  · simp only [if_pos role] at success
    exact success _
  · simp only [if_neg role] at success
    exact success _

theorem castVote_ends {req : RequestVoteRequest} (current : n.currentTerm = req.term)
    (disk : Disk) :
    (n.castVote req).Ends store (fun r disk => r.2.voteGranted = true →
      r.1.currentTerm = req.term ∧ r.1.votedFor = req.candidateID ∧ disk.hardState = some r.1.vote)
        disk := by
  unfold castVote
  split
  · refine ⟨fun _ => ⟨current, rfl, rfl⟩, fun reached granted => ?_⟩
    cases granted
  · intro granted
    cases granted

theorem handleRequestVote_ends (req : RequestVoteRequest) (disk : Disk) :
    (n.handleRequestVote cfg req).Ends store (fun r disk => r.2.voteGranted = true →
      r.1.currentTerm = req.term ∧ r.1.votedFor = req.candidateID ∧ disk.hardState = some r.1.vote)
        disk := by
  have refused (m : Node) (disk : Disk) : (pure (m, { term := m.currentTerm }) :
      Program StoreOp (Node × RequestVoteResponse)).Ends store
        (fun r disk => r.2.voteGranted = true →
      r.1.currentTerm = req.term ∧ r.1.votedFor = req.candidateID ∧ disk.hardState = some r.1.vote)
        disk := by
    intro granted
    cases granted
  unfold handleRequestVote
  split
  · exact refused n disk
  split
  · exact refused n disk
  split
  · exact refused n disk
  rename_i reached
  split
  · rename_i later
    have term : (n.steppedDown cfg req.term "").currentTerm = req.term := by
      rw [steppedDown, followerAt_eq]
      split <;> exact max_eq_right later.le
    exact Ends.bind (becomeFollowerLocked_ends (castVote_ends term) (refused _) disk)
  · exact castVote_ends (by omega) disk

theorem startElection_ends (disk : Disk) :
    (n.startElection cfg).Ends store (fun r disk => ∀ req, r.2 = some req →
      r.1.currentTerm = req.term ∧ r.1.votedFor = cfg.id ∧ req.candidateID = cfg.id ∧
        disk.hardState = some r.1.vote) disk := by
  unfold startElection
  split
  · intro req sent
    cases sent
  · refine ⟨fun req sent => ?_, fun reached req sent => ?_⟩
    · cases sent
      exact ⟨rfl, rfl, rfl, rfl⟩
    · cases sent

end Node

namespace Host

/-- The data directory and the process, if there is one, are bound by the vote. -/
structure Honors (host : Host) (term : Nat) (candidate : NodeId) : Prop where
  disk : (host.disk.hardState.getD {}).Honors term candidate
  memory : ∀ p, host.proc = some p → p.node.vote.Honors term candidate

def Voted (host : Host) (term : Nat) (candidate : NodeId) : Prop :=
  ∃ p, host.proc = some p ∧ p.node.currentTerm = term ∧ p.node.votedFor = candidate ∧
    host.disk.hardState = some p.node.vote

theorem Voted.honors {host : Host} {term : Nat} {candidate : NodeId}
    (voted : host.Voted term candidate) :
    host.Honors term candidate := by
  rcases voted with ⟨p, live, current, given, saved⟩
  have bound : p.node.vote.Honors term candidate := Or.inr ⟨current.symm, given⟩
  constructor
  · rw [saved]
    exact bound
  · intro q alive
    rw [live] at alive
    cases alive
    exact bound

/-- Two votes of one node in one term are for the same candidate. -/
theorem Voted.unique {host : Host} {term : Nat} {candidate other : NodeId}
    (voted : host.Voted term candidate) (honors : host.Honors term other) : candidate = other := by
  rcases voted with ⟨p, live, current, given, -⟩
  rcases honors.memory p live with before | ⟨-, bound⟩
  · simp only [Node.vote, Node.hardState] at before
    omega
  · exact given.symm.trans bound

variable {cfg : Config} {codec : SnapshotCodec} {host after : Host} {p q : Proc} {fates : List Fate}
  {action : Action} {term : Nat} {candidate : NodeId}

/-- What a section does to the votes and the leadership of a process. -/
structure Renewed (action : Action) (p : Proc) (host after : Host) : Prop where
  disk : ∀ term candidate, candidate ≠ "" → p.node.vote.Honors term candidate →
    (host.disk.hardState.getD {}).Honors term candidate →
    (after.disk.hardState.getD {}).Honors term candidate
  memory : ∀ q, after.proc = some q → Node.Renewed action p.node q.node

theorem Renewed.proc (renewed : Node.Renewed action p.node q.node) :
    Renewed action p host (host.withProc q) := by
  refine ⟨fun _ _ _ _ honors => honors, fun other alive => ?_⟩
  cases alive
  exact renewed

theorem honors_written {hs : HardState} {op : StoreOp} {disk : Disk} (named : candidate ≠ "")
    (held : hs.Honors term candidate)
    (admitted : ∀ new, op = .saveHardState new → HardState.Renews new hs)
    (honors : (disk.hardState.getD {}).Honors term candidate) :
    ((Disk.complete op disk).hardState.getD {}).Honors term candidate := by
  cases op with
  | saveHardState new => exact admitted new rfl term candidate named held
  | appendEntries entries =>
      simp only [Disk.complete]
      split <;> exact honors
  | replaceEntries entries => exact honors
  | saveSnapshot snapshot => exact honors
  | rewriteWAL baseIndex baseTerm entries => exact honors

theorem honors_torn {hs : HardState} {op : StoreOp} {disk : Disk} {reached : Nat}
    (named : candidate ≠ "") (held : hs.Honors term candidate)
    (admitted : ∀ new, op = .saveHardState new → HardState.Renews new hs)
    (honors : (disk.hardState.getD {}).Honors term candidate) :
    ((Disk.torn op reached disk).hardState.getD {}).Honors term candidate := by
  cases reached with
  | zero =>
      have same : Disk.torn op 0 disk = disk := store.torn_zero op disk
      rw [same]
      exact honors
  | succ reached =>
      cases op with
      | saveHardState new => exact admitted new rfl term candidate named held
      | appendEntries entries =>
          simp only [Disk.torn]
          split <;> exact honors
      | replaceEntries entries => exact honors
      | saveSnapshot snapshot => exact honors
      | rewriteWAL baseIndex baseTerm entries => exact honors

theorem exec_honors {α : Type} {n : Node} {program : Program StoreOp α} {post : α → Prop}
    {disk : Disk} (does : program.Does n.MaySave post) (named : candidate ≠ "")
    (held : n.vote.Honors term candidate) (honors : (disk.hardState.getD {}).Honors term candidate)
    (fates : List Fate) :
    (program.exec store disk fates).Meets
      (fun value disk => post value ∧ (disk.hardState.getD {}).Honors term candidate)
      fun disk => (disk.hardState.getD {}).Honors term candidate := by
  have admitted (op : StoreOp) (may : n.MaySave op) (new : HardState)
      (save : op = .saveHardState new) :
      HardState.Renews new n.vote := by
    cases save
    exact may
  refine Does.exec does ?_ ?_ ?_ fates
  · exact fun op disk may => honors_written named held (admitted op may)
  · exact fun op reached disk may => honors_torn named held (admitted op may)
  · exact honors

theorem run_renewed {α : Type} {program : Program StoreOp α} {memory : α → Node}
    {finish : α → Host × Output}
    (does : program.Does p.node.MaySave fun value => Node.Renewed action p.node (memory value))
    (finished : ∀ value q, (finish value).1.proc = some q → q.node = memory value) :
    Renewed action p host (host.run program fates finish).1 where
  disk := by
    intro term candidate named held honors
    have meets := exec_honors does named held honors fates
    unfold run
    generalize program.exec store host.disk fates = ending at meets ⊢
    cases ending with
    | done value disk => exact meets.2
    | crashed disk => exact meets
  memory := by
    intro q alive
    rcases run_alive does.all alive with ⟨value, renewed, same, -⟩
    rw [finished value q same]
    exact renewed

theorem renewing_sections
    (unwrapped : action = .startElection → p.node.currentTerm + 1 < uint64Size) (chans : Nat) :
    Node.Sections (fun program memory => program.Does p.node.MaySave fun value =>
      Node.Renewed action p.node (memory value)) cfg chans p.node action where
  requestVote req _ := Node.handleRequestVote_does req
  appendEntries req _ := Node.handleAppendEntries_does req
  installSnapshot _ req _ := Node.handleInstallSnapshot_does req
  installDecoded req body data _ := Node.installDecoded_does req body data
  propose command _ := Node.proposeAppend_does command chans
  startElection stands := by
    subst stands
    exact Node.startElection_does (unwrapped rfl)
  becomeLeader term crowned := by
    subst crowned
    exact Node.becomeLeader_does term
  stepDown term leaderID _ := Node.stepDown_does term leaderID
  replicateReply peer req resp _ := Node.replicateReply_does peer req resp
  snapshotReply term resp _ := Node.sendSnapshotReply_does term resp
  persistSave _ _ := ⟨trivial, fun _ => .refl _⟩
  persistEnd snapshot _ := Node.compact_does snapshot

theorem step_renewed (action : Action) (live : host.proc = some p)
    (unwrapped : action = .startElection → p.node.currentTerm + 1 < uint64Size) :
    Renewed action p host (p.step cfg codec host fates action).1 := by
  apply Proc.step_rule live (renewing_sections unwrapped host.chans)
  · intro α program memory finish does finished
    exact run_renewed does finished
  · intro q akin
    exact .proc (.quiet akin.term akin.vote akin.role akin.denies)
  · refine ⟨fun _ _ _ _ honors => honors, fun q alive => ?_⟩
    cases alive

theorem step_honors {action : Action}
    (unwrapped : ∀ p, host.proc = some p → action = .startElection →
      p.node.currentTerm + 1 < uint64Size)
    (named : candidate ≠ "") (honors : host.Honors term candidate) :
    (host.step cfg codec fates action).1.Honors term candidate := by
  unfold Host.step
  split
  · rename_i p live
    have renewed : Renewed _ p host (p.step cfg codec host fates action).1 :=
      step_renewed action live (unwrapped p live)
    have held := honors.memory p live
    constructor
    · exact renewed.disk term candidate named held honors.disk
    · intro q alive
      exact (renewed.memory q alive).vote term candidate named held
  · rename_i down
    split
    · rename_i loaded loads
      -- The new process starts with the hard state that is on disk.
      have same := (Disk.load_records loads).2.1
      have held : (Node.restored loaded).vote.Honors term candidate := by
        have disk := honors.disk
        rw [same] at disk
        exact disk
      have meets := exec_honors (Node.newNode_does loaded) named held honors.disk fates
      constructor
      · unfold run
        generalize (Node.newNode loaded).exec store host.disk fates = ending at meets ⊢
        cases ending with
        | done value disk => exact meets.2
        | crashed disk => exact meets
      · intro q alive
        rcases run_alive (Node.newNode_does loaded).all alive with ⟨value, fresh, present, -⟩
        simp only [Option.map_eq_some_iff] at present
        rcases present with ⟨n, found, rfl⟩
        rw [fresh n found]
        exact held
    · exact honors

theorem step_leads {action : Action}
    (unwrapped : ∀ p, host.proc = some p → action = .startElection →
      p.node.currentTerm + 1 < uint64Size)
    (alive : (host.step cfg codec fates action).1.proc = some q) (leads : q.node.role = .leader) :
    (∃ p, host.proc = some p ∧ p.node.role = .leader ∧ q.node.currentTerm = p.node.currentTerm) ∨
      action = .becomeLeader q.node.currentTerm := by
  unfold Host.step at alive
  split at alive
  · rename_i p live
    have renewed := (step_renewed action live (unwrapped p live)).memory q alive
    rcases renewed.leads leads with ⟨led, same⟩ | crowned
    · exact Or.inl ⟨p, live, led, same⟩
    · exact Or.inr crowned
  · rename_i down
    split at alive
    · rename_i loaded loads
      rcases run_alive (Node.newNode_does loaded).all alive with ⟨value, fresh, present, -⟩
      simp only [Option.map_eq_some_iff] at present
      rcases present with ⟨n, found, rfl⟩
      rw [fresh n found] at leads
      cases leads
    · rw [down] at alive
      cases alive

theorem step_voted {action : Action} {resp : RequestVoteResponse}
    (output : (host.step cfg codec fates action).2 = .vote resp)
    (granted : resp.voteGranted = true) :
    ∃ req, action = .requestVote req ∧
      (host.step cfg codec fates action).1.Voted req.term req.candidateID := by
  have origin : (host.step cfg codec fates action).2.From host action := step_from action
  rw [output] at origin
  rcases origin with ⟨req, rfl⟩
  refine ⟨req, rfl, ?_⟩
  unfold Host.step at output ⊢
  split at output
  · rename_i p live
    simp only [Proc.step] at output ⊢
    have spoken : (host.run (p.node.handleRequestVote cfg req) fates fun r =>
        (host.withNode p r.1, .vote r.2)).2 ≠ .nothing := by
      rw [output]
      exact fun same => by cases same
    rcases run_done spoken with ⟨⟨m, answer⟩, disk, ended, ran⟩
    rw [ran] at output ⊢
    cases output
    have cast := (Node.handleRequestVote_ends req host.disk).exec ended granted
    exact ⟨_, rfl, cast⟩
  · cases output

theorem step_stood {action : Action} {req : RequestVoteRequest}
    (output : (host.step cfg codec fates action).2 = .campaign req) :
    req.candidateID = cfg.id ∧ (host.step cfg codec fates action).1.Voted req.term cfg.id := by
  have origin : (host.step cfg codec fates action).2.From host action := step_from action
  rw [output] at origin
  cases origin
  unfold Host.step at output ⊢
  split at output
  · rename_i p live
    simp only [Proc.step] at output ⊢
    have spoken : (host.run (p.node.startElection cfg) fates fun r =>
        (host.withNode p r.1, .ofElection r.2)).2 ≠ .nothing := by
      rw [output]
      exact fun same => by cases same
    rcases run_done spoken with ⟨⟨m, sent⟩, disk, ended, ran⟩
    rw [ran] at output ⊢
    have stood := (Node.startElection_ends host.disk).exec ended
    cases sent with
    | none => cases output
    | some sent =>
        cases output
        rcases stood req rfl with ⟨current, voted, named, saved⟩
        exact ⟨named, _, rfl, current, voted, saved⟩
  · cases output

end Host

end GoRaftKV.Raft
