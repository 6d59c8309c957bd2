import GoRaftKV.Raft.Proposals
import GoRaftKV.Raft.ReadBarrier

/-! Where the leader hints of a node come from: a node names nobody but the winner of its term. -/

namespace GoRaftKV.Raft

open Storage Library Program

/-- A hint is empty or the name of a node that has led some term, with the address configured for
it. -/
def Config.Hints (cfg : Config) (known : Nat → NodeId → Prop) (hint : NodeId) (address : String) :
    Prop :=
  (hint ≠ "" → ∃ term, known term hint) ∧
  address = Node.leaderAddressLocked { leaderID := hint } cfg

namespace Node

/-- The node names only who is known to lead its term, itself if it leads, and has told its waiters
no more. -/
structure Oriented (known : Nat → NodeId → Prop) (cfg : Config) (n : Node) : Prop where
  leader : n.leaderID ≠ "" → known n.currentTerm n.leaderID
  own : n.role = .leader → n.leaderID = cfg.id
  denials : ∀ sent ∈ n.delivered, ∀ hint address, sent.2.err = some (.notLeader hint address) →
    cfg.Hints known hint address

variable {known : Nat → NodeId → Prop} {cfg : Config} {n m : Node}

theorem Oriented.same (oriented : n.Oriented known cfg) (term : m.currentTerm = n.currentTerm)
    (leader : m.leaderID = n.leaderID) (role : m.role = n.role)
    (delivered : m.delivered = n.delivered) :
    m.Oriented known cfg where
  leader := by
    rw [leader, term]
    exact oriented.leader
  own := by
    rw [leader, role]
    exact oriented.own
  denials := by
    rw [delivered]
    exact oriented.denials

theorem Oriented.hints (oriented : n.Oriented known cfg) {hint : NodeId} {address : String}
    (told : n.notLeaderLocked cfg = .notLeader hint address) : cfg.Hints known hint address := by
  cases told
  exact ⟨fun named => ⟨n.currentTerm, oriented.leader named⟩, rfl⟩

theorem Oriented.resolved (oriented : n.Oriented known cfg) (choose : Nat → Bool)
    {outcome : ApplyOutcome}
    (genuine : ∀ hint address, outcome.err = some (.notLeader hint address) →
    cfg.Hints known hint address) :
    (n.resolveWaiters choose outcome).Oriented known cfg where
  leader := oriented.leader
  own := oriented.own
  denials := by
    intro sent member hint address denied
    rcases List.mem_append.mp member with old | fresh
    · exact oriented.denials sent old hint address denied
    · rcases List.mem_map.mp fresh with ⟨waiter, -, rfl⟩
      exact genuine hint address denied

theorem Oriented.failWaiters (oriented : n.Oriented known cfg) :
    (n.failUncommittedWaitersLocked cfg).Oriented known cfg := by
  apply oriented.resolved
  intro hint address denied
  exact oriented.hints (Option.some.inj denied)

theorem Oriented.followed (oriented : n.Oriented known cfg) (follows : m.role = .follower)
    (heard : m.leaderID ≠ "" → known m.currentTerm m.leaderID)
    (delivered : m.delivered = n.delivered) :
    m.Oriented known cfg where
  leader := heard
  own := by
    rw [follows]
    rintro ⟨⟩
  denials := by
    rw [delivered]
    exact oriented.denials

theorem Oriented.failed (oriented : n.Oriented known cfg) :
    (n.failStorageLocked cfg).Oriented known cfg :=
  failWaiters (oriented.followed rfl (absurd rfl) rfl)

section StepDown

variable {term : Nat} {leaderID : NodeId}

theorem Oriented.followerAt (oriented : n.Oriented known cfg) (bound : n.currentTerm ≤ term)
    (heard : leaderID ≠ "" → known term leaderID) :
    (n.followerAt term leaderID).Oriented known cfg := by
  rw [followerAt_eq, max_eq_right bound]
  exact oriented.followed rfl heard rfl

theorem Oriented.steppedDown (oriented : n.Oriented known cfg) (bound : n.currentTerm ≤ term)
    (heard : leaderID ≠ "" → known term leaderID) :
    (n.steppedDown cfg term leaderID).Oriented known cfg := by
  unfold Node.steppedDown
  split
  · exact (oriented.followerAt bound heard).failWaiters
  · exact oriented.followerAt bound heard

theorem becomeFollowerLocked_orients (oriented : n.Oriented known cfg) :
    (n.becomeFollowerLocked cfg term "").All fun r => r.1.Oriented known cfg := by
  -- A step-down without a new leader may come from an old answer.
  have follower : (n.followerAt term "").Oriented known cfg := by
    rw [followerAt_eq]
    exact oriented.followed rfl (absurd rfl) rfl
  apply becomeFollowerLocked_all
  · unfold Node.steppedDown
    split
    · exact follower.failWaiters
    · exact follower
  · exact follower.failed

end StepDown

theorem castVote_orients (req : RequestVoteRequest) (oriented : n.Oriented known cfg) :
    (n.castVote req).All fun r => r.1.Oriented known cfg := by
  unfold castVote
  split
  · simp only [persistHardStateLocked, saveHardStateLocked, perform_bind, all_call]
    exact ⟨oriented.same rfl rfl rfl rfl, oriented⟩
  · exact oriented

theorem handleRequestVote_orients (req : RequestVoteRequest) (oriented : n.Oriented known cfg) :
    (n.handleRequestVote cfg req).All fun r => r.1.Oriented known cfg := by
  unfold handleRequestVote
  split
  · exact oriented
  split
  · exact oriented
  split
  · exact oriented
  split
  · refine All.bind ((becomeFollowerLocked_orients oriented).mono ?_)
    rintro ⟨m, saved⟩ stepped
    cases saved with
    | true => exact castVote_orients req stepped
    | false => exact stepped
  · exact castVote_orients req oriented

theorem commitTo_orients (newCommit : Nat) (oriented : n.Oriented known cfg) :
    (n.commitTo newCommit).All fun r => r.1.Oriented known cfg := by
  unfold commitTo
  split
  · simp only [persistHardStateLocked, saveHardStateLocked, perform_bind, all_call]
    exact ⟨oriented.same rfl rfl rfl rfl, oriented⟩
  · exact oriented

theorem spliceEntries_orients (req : AppendEntriesRequest) (oriented : n.Oriented known cfg) :
    (n.spliceEntries cfg req).All fun r => r.1.Oriented known cfg := by
  rcases mergeEntriesLocked_memory (n := n) req.prevLogIndex req.entries with ⟨log, memory⟩
  unfold spliceEntries
  generalize n.mergeEntriesLocked req.prevLogIndex req.entries = outcome at memory ⊢
  rcases outcome with ⟨merged, merge⟩
  simp only at memory ⊢
  subst memory
  have spliced : Oriented known cfg { n with log := log } := oriented.same rfl rfl rfl rfl
  split
  · exact spliced
  split
  · simp only [perform_bind, all_call, if_true]
    exact ⟨commitTo_orients _ spliced, oriented.failed⟩
  · exact commitTo_orients _ spliced

theorem matchEntries_orients (req : AppendEntriesRequest) (oriented : n.Oriented known cfg)
    (follows : n.role = .follower) (current : n.currentTerm = req.term)
    (heard : known req.term req.leaderID) :
    (n.matchEntries cfg req).All fun r => r.1.Oriented known cfg := by
  have led : Oriented known cfg { n with leaderID := req.leaderID } :=
    oriented.followed follows (fun _ => current ▸ heard) rfl
  unfold matchEntries
  simp only
  split
  · exact led
  split
  · exact led
  · exact spliceEntries_orients req led

theorem handleAppendEntries_orients (req : AppendEntriesRequest) (oriented : n.Oriented known cfg)
    (heard : known req.term req.leaderID) :
    (n.handleAppendEntries cfg req).All fun r => r.1.Oriented known cfg := by
  unfold handleAppendEntries
  simp only
  split
  · exact oriented
  split
  · exact oriented
  split
  · exact oriented
  rename_i recent
  have bound : n.currentTerm ≤ req.term := Nat.le_of_not_lt recent
  split
  · refine All.bind (becomeFollowerLocked_all ?_ ?_)
    · exact matchEntries_orients req (oriented.steppedDown bound fun _ => heard)
        (steppedDown_eq n cfg req.term req.leaderID).1 (steppedDown_term bound req.leaderID) heard
    · exact (oriented.followerAt bound fun _ => heard).failed
  · rename_i settled
    push Not at settled
    exact matchEntries_orients req oriented settled.2 (le_antisymm bound settled.1) heard

theorem collectChunk_orients (req : InstallSnapshotRequest) (oriented : n.Oriented known cfg)
    (follows : n.role = .follower) (current : n.currentTerm = req.term)
    (heard : known req.term req.leaderID) :
    (n.collectChunk req).1.Oriented known cfg := by
  rcases collectChunk_eq n req with ⟨pending, same⟩
  rw [same]
  exact oriented.followed follows (fun _ => current ▸ heard) rfl

theorem handleInstallSnapshot_orients (req : InstallSnapshotRequest)
    (oriented : n.Oriented known cfg) (heard : known req.term req.leaderID) :
    (n.handleInstallSnapshot cfg req).All fun r => r.1.Oriented known cfg := by
  unfold handleInstallSnapshot
  split
  · exact oriented
  split
  · exact oriented
  split
  · exact oriented
  rename_i recent
  have bound : n.currentTerm ≤ req.term := Nat.le_of_not_lt recent
  split
  · refine All.bind (becomeFollowerLocked_all ?_ ?_)
    · exact collectChunk_orients req (oriented.steppedDown bound fun _ => heard)
        (steppedDown_eq n cfg req.term req.leaderID).1 (steppedDown_term bound req.leaderID) heard
    · exact (oriented.followerAt bound fun _ => heard).failed.same rfl rfl rfl rfl
  · rename_i settled
    push Not at settled
    exact collectChunk_orients req oriented settled.2 (le_antisymm bound settled.1) heard

theorem finishInstall_orients (req : InstallSnapshotRequest) (body : Bytes) (data : Option KVMap)
    (oriented : n.Oriented known cfg) (follows : n.role = .follower)
    (current : n.currentTerm = req.term) (heard : known req.term req.leaderID) :
    (n.finishInstall cfg req body data).All fun r => r.1.Oriented known cfg := by
  have led : Oriented known cfg { n with leaderID := req.leaderID } :=
    oriented.followed follows (fun _ => current ▸ heard) rfl
  have cleared : Oriented known cfg { n with leaderID := req.leaderID, pendingSnapshot := none } :=
    led.same rfl rfl rfl rfl
  unfold finishInstall
  simp only
  split
  · exact cleared
  split
  · exact led
  split
  · simp only [persistInstall, saveHardStateLocked, perform_bind, all_call, if_true]
    exact ⟨⟨⟨led.same rfl rfl rfl rfl, cleared.failed⟩, cleared.failed⟩, cleared.failed⟩
  · exact led

theorem installDecoded_orients (req : InstallSnapshotRequest) (body : Bytes) (data : Option KVMap)
    (oriented : n.Oriented known cfg) (heard : known req.term req.leaderID) :
    (n.installDecoded cfg req body data).All fun r => r.1.Oriented known cfg := by
  have refused : Oriented known cfg { n with pendingSnapshot := none } :=
    oriented.same rfl rfl rfl rfl
  unfold installDecoded
  simp only
  split
  · exact refused
  split
  · exact refused
  split
  · exact refused
  rename_i recent
  have bound : n.currentTerm ≤ req.term := Nat.le_of_not_lt recent
  split
  · refine All.bind (becomeFollowerLocked_all ?_ ?_)
    · exact finishInstall_orients req body data (oriented.steppedDown bound fun _ => heard)
        (steppedDown_eq n cfg req.term req.leaderID).1 (steppedDown_term bound req.leaderID) heard
    · exact (oriented.followerAt bound fun _ => heard).failed.same rfl rfl rfl rfl
  · rename_i settled
    push Not at settled
    exact finishInstall_orients req body data oriented settled.2 (le_antisymm bound settled.1) heard

theorem advanceCommitLocked_orients (oriented : n.Oriented known cfg) :
    (n.advanceCommitLocked cfg).All fun m => m.Oriented known cfg := by
  unfold advanceCommitLocked
  split
  · exact oriented
  · simp only [persistHardStateLocked, saveHardStateLocked, perform_bind, all_call]
    exact ⟨oriented.same rfl rfl rfl rfl, oriented.failed⟩

theorem proposeAppend_orients (command : Command) (chan : ChanId)
    (oriented : n.Oriented known cfg) :
    (n.proposeAppend cfg command chan).All fun r => r.1.Oriented known cfg ∧
      ∀ hint address, r.2 = .error (.notLeader hint address) → cfg.Hints known hint address := by
  unfold proposeAppend
  split
  · exact ⟨oriented, by rintro hint address ⟨⟩⟩
  split
  · exact ⟨oriented, by rintro hint address ⟨⟩⟩
  split
  · exact ⟨oriented, fun hint address told => oriented.hints (Except.error.inj told)⟩
  · simp only [perform_bind, all_call]
    refine ⟨?_, oriented.failed, by rintro hint address ⟨⟩⟩
    have accepted : (n.accepted cfg
        { index := n.lastIndexLocked + 1, term := n.currentTerm, command := command }
        chan).Oriented known cfg := oriented.same rfl rfl rfl rfl
    refine All.bind ((advanceCommitLocked_orients accepted).mono fun m later => ⟨later, ?_⟩)
    rintro hint address ⟨⟩

theorem startElection_orients (oriented : n.Oriented known cfg) :
    (n.startElection cfg).All fun r => r.1.Oriented known cfg := by
  unfold startElection
  split
  · exact oriented
  · simp only [persistHardStateLocked, saveHardStateLocked, perform_bind, all_call]
    refine ⟨⟨absurd rfl, ?_, oriented.denials⟩, oriented.same rfl rfl rfl rfl⟩
    rintro ⟨⟩

theorem becomeLeader_orients (term : Nat) (oriented : n.Oriented known cfg)
    (elected : known term cfg.id) :
    (n.becomeLeader cfg term).All fun m => m.Oriented known cfg := by
  unfold becomeLeader
  split
  · exact oriented
  · rename_i eligible
    push Not at eligible
    have leads : (n.leading cfg).Oriented known cfg := by
      refine ⟨fun _ => ?_, fun _ => rfl, oriented.denials⟩
      rw [← eligible.2.2] at elected
      exact elected
    simp only [perform_bind, all_call]
    exact ⟨advanceCommitLocked_orients (leads.same rfl rfl rfl rfl), leads.failed⟩

theorem replicateReply_orients (peer : NodeId) (req : AppendEntriesRequest)
    (resp : AppendEntriesResponse) (oriented : n.Oriented known cfg) :
    (n.replicateReply cfg peer req resp).All fun r => r.1.Oriented known cfg := by
  unfold replicateReply
  split
  · exact All.bind (becomeFollowerLocked_orients oriented)
  split
  · exact oriented
  split
  · exact All.bind (advanceCommitLocked_orients (oriented.same rfl rfl rfl rfl))
  split
  · exact oriented.same rfl rfl rfl rfl
  · exact oriented

theorem sendSnapshotReply_orients (term : Nat) (resp : InstallSnapshotResponse)
    (oriented : n.Oriented known cfg) :
    (n.sendSnapshotReply cfg term resp).All fun r => r.1.Oriented known cfg := by
  unfold sendSnapshotReply
  split
  · exact All.bind (becomeFollowerLocked_orients oriented)
  · exact oriented

theorem compact_orients (snapshot : Snapshot) (oriented : n.Oriented known cfg) :
    (n.compact snapshot).All fun m => m.Oriented known cfg := by
  unfold compact
  split
  · exact oriented
  · simp only [perform_bind, all_call]
    exact ⟨oriented.same rfl rfl rfl rfl, oriented⟩

theorem Quiet.orients {action : Action} (quiet : Quiet cfg n action m)
    (oriented : n.Oriented known cfg) :
    m.Oriented known cfg := by
  cases quiet with
  | replicate peer =>
      rcases replicateToPeer_eq n cfg peer with ⟨⟨nextIndex, same⟩, -⟩
      rw [same]
      exact oriented.same rfl rfl rfl rfl
  | snapshotSent peer term snapIdx =>
      unfold Node.snapshotSent
      split <;> exact oriented.same rfl rfl rfl rfl
  | applyNext =>
      unfold Node.applyNext
      split
      · exact oriented
      split <;> exact oriented.same rfl rfl rfl rfl
  | applyDone entry result =>
      rw [applyDone_eq]
      split
      · have counted : Oriented known cfg { n with lastApplied := entry.index } :=
          oriented.same rfl rfl rfl rfl
        exact counted.resolved _ (by rintro hint address ⟨⟩)
      · exact oriented
  | stop =>
      unfold Node.stop
      split
      · exact oriented
      · have stopped : Oriented known cfg { n with stopped := true } :=
          oriented.same rfl rfl rfl rfl
        exact stopped.resolved _ (by rintro hint address ⟨⟩)
  | _ => exact oriented.same rfl rfl rfl rfl

end Node

/-- What is known about the leaders that a section is told of. -/
def Action.Heralds (action : Action) (known : Nat → NodeId → Prop) (cfg : Config) (host : Host) :
    Prop :=
  match action with
  | .appendEntries req => known req.term req.leaderID
  | .installSnapshot _ req => known req.term req.leaderID
  | .installDecoded =>
      ∀ p number req body, host.proc = some p → p.persistMu = .decoding number req body →
        known req.term req.leaderID
  | .becomeLeader term => known term cfg.id
  | .stepDown _ leaderID => leaderID = ""
  | _ => True

namespace Host

variable {known : Nat → NodeId → Prop} {cfg : Config} {codec : SnapshotCodec} {host : Host}
  {fates : List Fate} {action : Action} {p q : Proc}

theorem orienting_sections {n : Node} (oriented : n.Oriented known cfg)
    (heralds : action.Heralds known cfg host) (decoded : action ≠ .installDecoded) (chans : Nat) :
    Node.Sections (fun program memory => program.All fun value => (memory value).Oriented known cfg)
      cfg chans n action where
  requestVote req _ := Node.handleRequestVote_orients req oriented
  appendEntries := by
    rintro req rfl
    exact Node.handleAppendEntries_orients req oriented heralds
  installSnapshot := by
    rintro call req rfl
    exact Node.handleInstallSnapshot_orients req oriented heralds
  installDecoded req body data same := absurd same decoded
  propose command _ := (Node.proposeAppend_orients command chans oriented).mono fun _ => And.left
  startElection _ := Node.startElection_orients oriented
  becomeLeader := by
    rintro term rfl
    exact Node.becomeLeader_orients term oriented heralds
  stepDown := by
    rintro term leaderID rfl
    cases heralds
    exact Node.becomeFollowerLocked_orients oriented
  replicateReply peer req resp _ := Node.replicateReply_orients peer req resp oriented
  snapshotReply term resp _ := Node.sendSnapshotReply_orients term resp oriented
  persistSave _ _ _ := oriented
  persistEnd snapshot _ := Node.compact_orients snapshot oriented

theorem decoded_orients (live : host.proc = some p) (oriented : p.node.Oriented known cfg)
    (heralds : Action.installDecoded.Heralds known cfg host)
    (alive : (p.step cfg codec host fates .installDecoded).1.proc = some q) :
    q.node.Oriented known cfg := by
  simp only [Proc.step] at alive
  split at alive
  · rename_i call req body decoding
    split at alive
    · cases alive
      exact oriented.same rfl rfl rfl rfl
    split at alive
    · have heard := heralds p call req body live decoding
      rcases run_alive (Node.installDecoded_orients req body _ oriented heard) alive with
        ⟨value, later, same, -⟩
      cases same
      exact later
    · cases live.symm.trans alive
      exact oriented
  · cases live.symm.trans alive
    exact oriented

theorem step_oriented (oriented : ∀ p, host.proc = some p → p.node.Oriented known cfg)
    (heralds : action.Heralds known cfg host)
    (alive : (host.step cfg codec fates action).1.proc = some q) :
    q.node.Oriented known cfg := by
  unfold Host.step at alive
  split at alive
  · rename_i p live
    by_cases decoded : action = .installDecoded
    · subst decoded
      exact decoded_orients live (oriented p live) heralds alive
    · refine @Proc.step_sections cfg codec host p fates action _
        (fun next => ∀ q, next.proc = some q → q.node.Oriented known cfg) live
        (orienting_sections (oriented p live) heralds decoded host.chans) ?_ ?_ ?_ q alive
      · intro α program memory finish every made q alive
        rcases run_alive every alive with ⟨value, later, same, -⟩
        rw [made value q same]
        exact later
      · intro q quiet r alive
        cases alive
        exact quiet.orients (oriented p live)
      · intro q alive
        cases alive
  · rename_i down
    split at alive
    · rename_i loaded _
      rcases run_alive (Node.newNode_does loaded).all alive with ⟨value, restored, same, -⟩
      rcases Option.map_eq_some_iff.mp same with ⟨n, built, rfl⟩
      rw [restored n built]
      refine ⟨absurd rfl, ?_, ?_⟩
      · rintro ⟨⟩
      · intro sent member
        cases member
    · rw [down] at alive
      cases alive

theorem step_refused (oriented : ∀ p, host.proc = some p → p.node.Oriented known cfg)
    {chan : ChanId} {hint : NodeId} {address : String}
    (output : (host.step cfg codec fates action).2 =
    .proposed chan (.error (.notLeader hint address))) :
    cfg.Hints known hint address := by
  have origin : (host.step cfg codec fates action).2.From host action := step_from action
  rw [output] at origin
  rcases origin with ⟨command, rfl⟩
  unfold Host.step at output
  split at output
  · rename_i p live
    rcases run_done (fun silent => by cases output.symm.trans silent) with ⟨value, disk, ran, same⟩
    simp only [Proc.step, same] at output
    have told := ((Node.proposeAppend_orients command host.chans (oriented p live)).exec ran).2
    rcases value with ⟨m, err | index⟩
    · cases output
      exact told hint address rfl
    · cases output
  · simp only at output
    cases output

end Host

theorem outcome_denied {outcome : ApplyOutcome} {hint : NodeId} {address : String}
    (denied : (resultFromOutcome outcome).2 = some (.notLeader hint address)) :
    outcome.err = some (.notLeader hint address) := by
  unfold resultFromOutcome at denied
  split at denied
  · rename_i err failed
    exact failed.trans denied
  · split at denied <;> cases denied

/-- The leader that a request announces, with its term. -/
def Request.herald : Request → Option (Nat × NodeId)
  | .vote _ => none
  | .append req => some (req.term, req.leaderID)
  | .snapshot req => some (req.term, req.leaderID)

namespace Cluster

variable {setting : Setting} {w next : Cluster} {event : Event} {task : Task}

/-- Whoever is announced as the leader of a term has won it. -/
def heralds (setting : Setting) (w : Cluster) : Ledger where
  call call := ∀ term leader, call.request.herald = some (term, leader) → w.Won setting leader term
  reply _ _ := True
  campaign _ := True
  stream stream := w.Won setting stream.node stream.term

/-- What the nodes and their clients know about leaders is true. -/
structure Announced (setting : Setting) (w : Cluster) : Prop where
  voting : Voting setting w
  ledger : (heralds setting w).Holds w
  oriented : ∀ id p, (w.hosts id).proc = some p →
    p.node.Oriented (fun term leader => w.Won setting leader term) (setting.config id)
  answers : ∀ answer ∈ w.answers, ∀ hint address, answer.error = some (.notLeader hint address) →
    (setting.config answer.node).Hints (fun term leader => w.Won setting leader term) hint address

end Cluster

theorem Config.Hints.mono {cfg : Config} {known better : Nat → NodeId → Prop} {hint : NodeId}
    {address : String} (hints : cfg.Hints known hint address)
    (more : ∀ term id, known term id → better term id) :
    cfg.Hints better hint address := by
  refine ⟨fun named => ?_, hints.2⟩
  rcases hints.1 named with ⟨term, led⟩
  exact ⟨term, more term hint led⟩

theorem Node.Oriented.mono {cfg : Config} {known better : Nat → NodeId → Prop} {n : Node}
    (oriented : n.Oriented known cfg) (more : ∀ term id, known term id → better term id) :
    n.Oriented better cfg where
  leader named := more _ _ (oriented.leader named)
  own := oriented.own
  denials sent member hint address denied :=
    (oriented.denials sent member hint address denied).mono more

namespace Cluster

variable {setting : Setting} {w next : Cluster} {event : Event} {task : Task}

theorem server_stepDown (ran : w.server setting event = some task) {term : Nat} {leaderID : NodeId}
    (down : task.action = .stepDown term leaderID) : leaderID = "" := by
  cases event with
  | «local» id action fates =>
      simp only [server] at ran
      split at ran
      · rename_i own
        cases ran
        cases down
        cases own
      · cases ran
  | cancel id chan =>
      simp only [server, Option.map_eq_some_iff] at ran
      rcases ran with ⟨made, -, rfl⟩
      cases down
  | deliver number fates =>
      simp only [server] at ran
      split at ran
      · rename_i call found
        cases ran
        simp only [Request.action] at down
        split at down <;> cases down
      · cases ran
  | reply number fates =>
      simp only [server] at ran
      split at ran
      · split at ran
        · simp only [Option.map_eq_some_iff] at ran
          rcases ran with ⟨action, answers, rfl⟩
          simp only at down
          subst down
          simp only [Call.replied] at answers
          repeat' split at answers
          all_goals cases answers
          rfl
        · cases ran
      · cases ran
  | _ =>
      simp only [server] at ran
      repeat' split at ran
      all_goals cases ran
      all_goals cases down

theorem Announced.heralds (announced : Announced setting w)
    (ran : w.server setting event = some task) :
    task.action.Heralds (fun term leader => w.Won setting leader term) (setting.config task.node)
      (w.hosts task.node) := by
  have asked := server_asked ran
  have known {number : Nat} {call : Call} (found : w.calls[number]? = some call) {term : Nat}
      {leader : NodeId} (names : call.request.herald = some (term, leader)) :
      w.Won setting leader term :=
    announced.ledger.calls call (List.mem_of_getElem? found) term leader names
  rcases task with ⟨node, action, fates, number⟩
  cases action with
  | appendEntries req =>
      rcases asked with ⟨sender, issued, found⟩
      exact known found rfl
  | installSnapshot call req =>
      rcases asked with ⟨-, sender, issued, found⟩
      exact known found rfl
  | installDecoded =>
      intro p number req body live decoding
      rcases announced.voting.filed node p number req body live decoding with
        ⟨sender, issued, found⟩
      exact known found rfl
  | becomeLeader term =>
      change w.Won setting (setting.config node).id term
      rw [setting.config_id]
      exact asked
  | stepDown term leaderID => exact server_stepDown ran rfl
  | _ => trivial

theorem heralds_mono (more : ∀ term id, w.Won setting id term → next.Won setting id term)
    (holds : (Cluster.heralds setting w).Holds w) : (Cluster.heralds setting next).Holds w where
  calls call member term leader names :=
    more term leader (holds.calls call member term leader names)
  replies number resp member := by
    rcases holds.replies number resp member with ⟨call, found, -⟩
    exact ⟨call, found, trivial⟩
  campaigns _ _ := trivial
  streams stream member := more _ _ (holds.streams stream member)

/-- Only leaders send entries and snapshots, and they have won their terms. -/
theorem Announced.ledger_step (announced : Announced setting w)
    (taken : w.step setting event = some next) :
    (Cluster.heralds setting next).Holds next := by
  have more := fun term id => @Grows.won setting w next (step_grows taken) id term
  refine (heralds_mono more announced.ledger).step taken ?_ ?_ ?_
  · intro task ran member
    have leads {p : Proc} (live : (w.hosts task.node).proc = some p)
        (role : p.node.role = .leader) :
        next.Won setting task.node p.node.currentTerm :=
      more _ _ (announced.voting.leads task.node p live role)
    refine ⟨?_, fun _ _ => trivial, ?_, ?_⟩
    · intro number resp output
      rcases announced.voting.filed.replied (server_asked ran) output with ⟨call, found, -⟩
      exact ⟨call, found, trivial⟩
    · intro peer req issued output term leader names
      rcases Host.step_dispatch output with ⟨p, live, -, role, -, -, same⟩
      rw [same, setting.config_id] at names
      cases names
      exact leads live role
    · intro peer term snapshot chunkSize output
      rcases Host.step_dispatch output with ⟨p, live, -, role, rfl, -⟩
      exact leads live role
  · intro campaign peer issued _ _ term leader names
    cases names
  · intro stream offset issued won _ term leader names
    cases names
    exact won

theorem Announced.step (announced : Announced setting w) (taken : w.step setting event = some next)
    (admitted : w.Unwrapped event) : Announced setting next where
  voting := announced.voting.step taken admitted
  ledger := announced.ledger_step taken
  oriented := by
    have more := fun term id => @Grows.won setting w next (step_grows taken) id term
    intro id q alive
    rcases step_host taken id with same | ⟨task, ran, rfl, -, stepped⟩
    · rw [same] at alive
      exact (announced.oriented id q alive).mono more
    · rw [stepped] at alive
      exact (Host.step_oriented (announced.oriented task.node) (announced.heralds ran) alive).mono
        more
  answers := by
    have more := fun term id => @Grows.won setting w next (step_grows taken) id term
    intro answer member hint address denied
    refine Config.Hints.mono ?_ more
    rcases step_answer taken member with old | ⟨task, err, ran, node, output, error⟩ |
      ⟨p, outcome, live, received, same⟩ | ⟨index, unknown⟩
    · exact announced.answers answer old hint address denied
    · rw [error] at denied
      cases denied
      rw [← node]
      exact Host.step_refused (announced.oriented task.node) output
    · have told : (resultFromOutcome outcome).2 = some (.notLeader hint address) := by
        rw [← same]
        exact denied
      simp only [Node.received, Option.map_eq_some_iff] at received
      rcases received with ⟨sent, found, rfl⟩
      exact (announced.oriented answer.node p live).denials sent (List.mem_of_find?_eq_some found)
        hint address (outcome_denied told)
    · rw [unknown] at denied
      cases denied

theorem announced_initial : Announced setting initial where
  voting := voting_initial
  ledger := ⟨by simp [initial], by simp [initial], by simp [initial], by simp [initial]⟩
  oriented := by
    intro id p live
    cases live
  answers := by simp [initial]

theorem announced_of_run (run : Run setting Unwrapped initial w) : Announced setting w := by
  induction run with
  | refl => exact announced_initial
  | tail _ step ih =>
      rcases step with ⟨event, next, admitted, taken⟩
      exact ih.step taken admitted

/-- In every run whose terms do not wrap around, whichever store calls fail: the leader that a node
names has won the node's term, a node that leads names itself, two nodes of one term name the same
leader, and a leader that a `Propose` call is pointed to has won some term and is given with its
configured address. -/
theorem hint_names_winner (run : Run setting Unwrapped initial w) :
    (∀ id p, (w.hosts id).proc = some p →
      (p.node.leaderID ≠ "" → w.Won setting p.node.leaderID p.node.currentTerm) ∧
      (p.node.role = .leader → p.node.leaderID = id)) ∧
    (∀ id other p q, (w.hosts id).proc = some p → (w.hosts other).proc = some q →
      p.node.currentTerm = q.node.currentTerm → p.node.leaderID ≠ "" → q.node.leaderID ≠ "" →
      p.node.leaderID = q.node.leaderID) ∧
    ∀ answer ∈ w.answers, ∀ hint address, answer.error = some (.notLeader hint address) →
      (hint ≠ "" → ∃ term, w.Won setting hint term) ∧
      address = Node.leaderAddressLocked { leaderID := hint } (setting.config answer.node) := by
  have announced := announced_of_run run
  refine ⟨?_, ?_, announced.answers⟩
  · intro id p live
    have oriented := announced.oriented id p live
    refine ⟨oriented.leader, fun leads => ?_⟩
    rw [oriented.own leads, setting.config_id]
  · intro id other p q live alive same named also
    have first := (announced.oriented id p live).leader named
    have second := (announced.oriented other q alive).leader also
    rw [← same] at second
    exact announced.voting.winner first second

/-- `c` has heard of the leader `a`, turns a client away and then fails to begin an election. -/
def turningAway : List Event :=
  accepting ++ committing ++
    [.propose "c" { op := .put, key := "k", value := "w" } [], .campaign "c" [.err 0]]

/-- `c` points to `a` in `term`, and so does the answer of the refused call. -/
def turnedAway (w : Cluster) : Bool :=
  w.holdsAt "c" (fun p => p.node.leaderID = "a" ∧ p.node.currentTerm = 1) ∧
    w.answers.any fun answer => answer.node = "c" ∧ answer.error = some (.notLeader "a" "a")

theorem hint_names_winner_turnedAway :
    ∃ w p, Run trioSetting Unwrapped initial w ∧ (w.hosts "c").proc = some p ∧
      p.node.leaderID = "a" ∧ w.Won trioSetting "a" 1 ∧
    ∃ answer ∈ w.answers, answer.error = some (.notLeader "a" "a") ∧ ∃ term,
      w.Won trioSetting "a" term := by
  have played : (play trioSetting Unwrapped initial turningAway).any turnedAway = true := by
    decide +kernel
  rcases play_any played with ⟨w, run, checked⟩
  simp only [turnedAway, decide_eq_true_eq, List.any_eq_true] at checked
  rcases checked with ⟨here, answer, member, -, denied⟩
  rcases holdsAt_proc here with ⟨p, live, names⟩
  simp only [decide_eq_true_eq] at names
  rcases hint_names_winner run with ⟨named, -, told⟩
  have won := (named "c" p live).1 (by rw [names.1]; decide)
  rw [names.1, names.2] at won
  exact ⟨w, p, run, live, names.1, won, answer, member, denied,
    (told answer member "a" "a" denied).1 (by decide)⟩

end Cluster

structure PeerStatus where
  id : NodeId
  address : String
  nextIndex : Nat
  matchIndex : Nat
  deriving DecidableEq, Repr

/-- What `Status` reports. A stopped node reports no role, no leader and no peers. -/
structure Status where
  id : NodeId
  address : String
  role : Option Role := none
  term : Nat
  leaderID : NodeId := ""
  leaderAddress : String := ""
  commitIndex : Nat
  lastApplied : Nat
  lastLogIndex : Nat
  snapshotIndex : Nat
  peers : List PeerStatus := []
  deriving DecidableEq, Repr

def Node.status (n : Node) (cfg : Config) : Status :=
  if n.stopped = true then
    { id := cfg.id, address := cfg.address, term := n.currentTerm, commitIndex := n.commitIndex
      lastApplied := n.lastApplied, lastLogIndex := n.lastIndexLocked
      snapshotIndex := n.snapshot.lastIncludedIndex }
  else
    { id := cfg.id, address := cfg.address, role := some n.role, term := n.currentTerm
      leaderID := n.leaderID, leaderAddress := n.leaderAddressLocked cfg
      commitIndex := n.commitIndex
      lastApplied := n.lastApplied, lastLogIndex := n.lastIndexLocked
      snapshotIndex := n.snapshot.lastIncludedIndex
      peers := (cfg.peerAddrs.sort (· ≤ ·)).map fun peer =>
        { id := peer, address := cfg.peerAddress peer, nextIndex := n.nextIndex peer
          matchIndex := n.matchIndex peer } }

namespace Node

variable {n : Node} {cfg : Config}

@[simp] theorem status_id : (n.status cfg).id = cfg.id := by
  unfold status
  split <;> rfl

@[simp] theorem status_term : (n.status cfg).term = n.currentTerm := by
  unfold status
  split <;> rfl

theorem status_leaderID (named : (n.status cfg).leaderID ≠ "") :
    (n.status cfg).leaderID = n.leaderID := by
  unfold status at named ⊢
  split at named
  · exact absurd rfl named
  · rename_i running
    rw [if_neg running]

theorem status_leader (leads : (n.status cfg).role = some .leader) :
    n.role = .leader ∧ (n.status cfg).leaderID = n.leaderID := by
  unfold status at leads ⊢
  split at leads
  · cases leads
  · rename_i running
    rw [if_neg running]
    exact ⟨Option.some.inj leads, rfl⟩

theorem status_ordered (wf : WellFormed n) :
    (n.status cfg).snapshotIndex ≤ (n.status cfg).lastApplied ∧
    (n.status cfg).lastApplied ≤ (n.status cfg).commitIndex ∧
    (n.status cfg).commitIndex ≤ (n.status cfg).lastLogIndex := by
  unfold status
  split <;> exact ⟨wf.compacted, wf.applied, wf.committed⟩

end Node

namespace Cluster

variable {setting : Setting} {first second : Cluster}

/-- The reports of one run, whichever store calls fail: their indexes are in order, a leader names
itself, and the reports of one term, on any nodes and at any times, never name two leaders. -/
theorem status_consistent (before : Run setting Unwrapped initial first)
    (after : Run setting Unwrapped first second) {id other : NodeId} {p q : Proc}
    (live : (first.hosts id).proc = some p) (alive : (second.hosts other).proc = some q)
    {report later : Status} (reported : p.node.status (setting.config id) = report)
    (again : q.node.status (setting.config other) = later) :
    (report.snapshotIndex ≤ report.lastApplied ∧ report.lastApplied ≤ report.commitIndex ∧
      report.commitIndex ≤ report.lastLogIndex) ∧
    (report.role = some .leader → report.leaderID = report.id) ∧
    (report.term = later.term → report.leaderID ≠ "" → later.leaderID ≠ "" →
      report.leaderID = later.leaderID) := by
  subst reported again
  have early := announced_of_run before
  have late := announced_of_run (before.trans after)
  refine ⟨Node.status_ordered ((sound_of_run before).wellFormed id p live), ?_, ?_⟩
  · intro leads
    rcases Node.status_leader leads with ⟨role, same⟩
    rw [same, Node.status_id, (early.oriented id p live).own role]
  · intro same named also
    rw [Node.status_term, Node.status_term] at same
    have own := Node.status_leaderID named
    have others := Node.status_leaderID also
    rw [own] at named ⊢
    rw [others] at also ⊢
    have won := won_of_run after ((early.oriented id p live).leader named)
    have winner := (late.oriented other q alive).leader also
    rw [← same] at winner
    exact late.voting.winner won winner

def leading (p : Proc) : Bool :=
  (p.node.status (trio "a")).role = some .leader ∧ (p.node.status (trio "a")).term = 1

def following (p : Proc) : Bool :=
  (p.node.status (trio "c")).leaderID ≠ "" ∧ (p.node.status (trio "c")).term = 1

theorem status_consistent_followed : ∃ first second p q, Run trioSetting Unwrapped initial first ∧
    Run trioSetting Unwrapped first second ∧ (first.hosts "a").proc = some p ∧
      (second.hosts "c").proc = some q ∧
    (p.node.status (trio "a")).role = some .leader ∧ (q.node.status (trio "c")).leaderID = "a" := by
  have played : (play trioSetting Unwrapped initial accepting).any
      (fun first => first.holdsAt "a" leading && (play trioSetting Unwrapped first committing).any
        fun second => second.holdsAt "c" following) = true := by
    decide +kernel
  rcases play_any played with ⟨first, before, checked⟩
  rw [Bool.and_eq_true] at checked
  rcases play_any checked.2 with ⟨second, after, later⟩
  rcases holdsAt_proc checked.1 with ⟨p, live, leads⟩
  rcases holdsAt_proc later with ⟨q, alive, follows⟩
  simp only [leading, following, decide_eq_true_eq] at leads follows
  rcases status_consistent before after live alive rfl rfl with ⟨-, own, agree⟩
  have self : (p.node.status (trio "a")).leaderID = "a" := (own leads.1).trans Node.status_id
  have given : (p.node.status (trio "a")).leaderID ≠ "" := by
    rw [self]
    decide
  have named := agree (leads.2.trans follows.2.symm) given follows.1
  exact ⟨first, second, p, q, before, after, live, alive, leads.1, named.symm.trans self⟩

end Cluster

end GoRaftKV.Raft
