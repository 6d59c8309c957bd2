import GoRaftKV.Raft.Sections

namespace GoRaftKV.Storage.HardState

/-- Whoever holds this hard state can vote in `term` for nobody but `candidate`. -/
def Honors (hs : HardState) (term : Nat) (candidate : String) : Prop :=
  term < hs.currentTerm ∨ (term = hs.currentTerm ∧ hs.votedFor = candidate)

/-- Every vote that `old` is bound by binds `new` as well. -/
def Renews (new old : HardState) : Prop :=
  ∀ term candidate, candidate ≠ "" → old.Honors term candidate → new.Honors term candidate

variable {old new newer : HardState}

theorem Renews.refl (hs : HardState) : hs.Renews hs := fun _ _ _ honors => honors

theorem Renews.trans (second : newer.Renews new) (first : new.Renews old) : newer.Renews old :=
  fun term candidate named honors => second term candidate named (first term candidate named honors)

theorem renews_later (later : old.currentTerm < new.currentTerm) : new.Renews old := by
  intro term candidate named honors
  rcases honors with before | ⟨same, -⟩
  · exact Or.inl (before.trans later)
  · rw [same]
    exact Or.inl later

theorem renews_vote (term : new.currentTerm = old.currentTerm)
    (vote : old.votedFor = "" ∨ new.votedFor = old.votedFor) : new.Renews old := by
  intro bound candidate named honors
  rcases honors with before | ⟨same, given⟩
  · rw [← term] at before
    exact Or.inl before
  · rcases vote with none | kept
    · exact absurd (given.symm.trans none) named
    · exact Or.inr ⟨same.trans term.symm, kept.trans given⟩

theorem Renews.term_le (renews : new.Renews old) : old.currentTerm ≤ new.currentTerm := by
  by_contra earlier
  -- An older term would have to be bound to two candidates at once.
  have bound (candidate : String) (named : candidate ≠ "") : new.votedFor = candidate := by
    rcases renews new.currentTerm candidate named (Or.inl (by omega)) with before | ⟨-, vote⟩
    · omega
    · exact vote
  have both := (bound "a" (by decide)).symm.trans (bound "b" (by decide))
  exact absurd both (by decide)

theorem Renews.vote_kept (renews : new.Renews old) (same : old.currentTerm = new.currentTerm)
    (voted : old.votedFor ≠ "") : new.votedFor = old.votedFor := by
  rcases renews old.currentTerm old.votedFor voted (Or.inr ⟨rfl, rfl⟩) with later | ⟨-, vote⟩
  · omega
  · exact vote

end GoRaftKV.Storage.HardState

namespace GoRaftKV.Raft

open Storage Library Program

namespace Node

def vote (n : Node) : HardState := n.hardState n.commitIndex

def Denies (n m : Node) : Prop :=
  ∀ sent ∈ m.delivered, sent.2.deniesLeadership = true → sent ∈ n.delivered

/-- What a section of `action` does to the votes and the role of `n`: its votes stay, only
`becomeLeader` makes a leader, and a node that keeps standing or leading turns no waiter away. -/
structure Renewed (action : Action) (n m : Node) : Prop where
  vote : m.vote.Renews n.vote
  leads : m.role = .leader →
    (n.role = .leader ∧ m.currentTerm = n.currentTerm) ∨ action = .becomeLeader m.currentTerm
  silent : action = .startElection ∨ (m.role ≠ .follower → n.role ≠ .follower ∧ n.Denies m)

/-- The hard states that a section on `n` may save. -/
def MaySave (n : Node) : StoreOp → Prop
  | .saveHardState hs => hs.Renews n.vote
  | _ => True

variable {action : Action} {cfg : Config} {n m k : Node}

theorem Renewed.trans (first : Renewed action n m) (second : Renewed action m k) :
    Renewed action n k where
  vote := second.vote.trans first.vote
  leads := by
    intro leads
    rcases second.leads leads with ⟨led, same⟩ | crowned
    · rcases first.leads led with ⟨earlier, before⟩ | crowned
      · exact Or.inl ⟨earlier, same.trans before⟩
      · rw [← same] at crowned
        exact Or.inr crowned
    · exact Or.inr crowned
  silent := by
    rcases first.silent with stands | one
    · exact Or.inl stands
    rcases second.silent with stands | two
    · exact Or.inl stands
    right
    intro remains
    rcases two remains with ⟨before, later⟩
    rcases one before with ⟨start, earlier⟩
    exact ⟨start, fun sent member denies => earlier sent (later sent member denies) denies⟩

theorem Renewed.quiet (term : m.currentTerm = n.currentTerm) (vote : m.votedFor = n.votedFor)
    (role : m.role = n.role) (denies : n.Denies m) : Renewed action n m where
  vote := HardState.renews_vote term (Or.inr vote)
  leads := fun leads => Or.inl ⟨role ▸ leads, term⟩
  silent := Or.inr fun remains => ⟨role ▸ remains, denies⟩

theorem Denies.same (delivered : m.delivered = n.delivered) : n.Denies m := by
  intro sent member denies
  rwa [delivered] at member

theorem resolveWaiters_denies (choose : Nat → Bool) (outcome : ApplyOutcome)
    (silent : outcome.deniesLeadership = false) : n.Denies (n.resolveWaiters choose outcome) := by
  intro sent member denies
  rcases List.mem_append.mp member with old | fresh
  · exact old
  · rcases List.mem_map.mp fresh with ⟨waiter, _, told⟩
    rw [← told] at denies
    cases silent.symm.trans denies

theorem Renewed.same (term : m.currentTerm = n.currentTerm) (vote : m.votedFor = n.votedFor)
    (role : m.role = n.role) (delivered : m.delivered = n.delivered) : Renewed action n m :=
  .quiet term vote role (.same delivered)

theorem Renewed.refl (n : Node) : Renewed action n n := .same rfl rfl rfl rfl

theorem Renewed.follows (vote : m.vote.Renews n.vote) (role : m.role = .follower) :
    Renewed action n m where
  vote := vote
  leads := by
    intro leads
    rw [role] at leads
    cases leads
  silent := Or.inr fun remains => absurd role remains

theorem Renewed.cleared (renewed : Renewed action n m) :
    Renewed action n { m with pendingSnapshot := none } :=
  ⟨renewed.vote, renewed.leads, renewed.silent⟩

theorem failed_renewed : Renewed action n (n.failStorageLocked cfg) :=
  .follows (HardState.renews_vote rfl (Or.inr rfl)) rfl

theorem followerAt_renews (term : Nat) (leaderID : NodeId) :
    (n.followerAt term leaderID).vote.Renews n.vote := by
  rw [followerAt_eq]
  by_cases later : n.currentTerm < term
  · apply HardState.renews_later
    simp only [Node.vote, hardState]
    omega
  · apply HardState.renews_vote
    · simp only [Node.vote, hardState]
      omega
    · simp only [Node.vote, hardState, if_neg later, or_true]

theorem steppedDown_renewed (term : Nat) (leaderID : NodeId) :
    Renewed action n (n.steppedDown cfg term leaderID) := by
  apply Renewed.follows _ (steppedDown_eq n cfg term leaderID).1
  unfold steppedDown
  split <;> exact followerAt_renews term leaderID

theorem fallen_renewed (term : Nat) (leaderID : NodeId) :
    Renewed action n ((n.followerAt term leaderID).failStorageLocked cfg) :=
  .follows (followerAt_renews term leaderID) rfl

theorem Renewed.does {α : Type} {program : Program StoreOp α} {memory : α → Node}
    (first : Renewed action n m)
    (does : program.Does m.MaySave fun value => Renewed action m (memory value)) :
    program.Does n.MaySave fun value => Renewed action n (memory value) := by
  induction program with
  | ret value => exact first.trans does
  | call op next ih =>
      refine ⟨?_, fun answer => ih answer (does.2 answer)⟩
      have admitted := does.1
      cases op with
      | saveHardState hs => exact HardState.Renews.trans admitted first.vote
      | _ => trivial

theorem becomeFollowerLocked_does {term : Nat} {leaderID : NodeId} {post : Node × Bool → Prop}
    (success : post (n.steppedDown cfg term leaderID, true))
    (failure : post ((n.followerAt term leaderID).failStorageLocked cfg, false)) :
    (n.becomeFollowerLocked cfg term leaderID).Does n.MaySave post := by
  unfold steppedDown at success
  simp only [becomeFollowerLocked, persistHardStateLocked, saveHardStateLocked, perform_bind,
    does_call]
  refine ⟨followerAt_renews term leaderID, ?_, failure⟩
  simp only [if_true]
  split <;> rename_i role
  · rwa [if_pos role] at success
  · rwa [if_neg role] at success

theorem stepDown_does (term : Nat) (leaderID : NodeId) :
    (n.becomeFollowerLocked cfg term leaderID).Does n.MaySave fun r => Renewed action n r.1 :=
  becomeFollowerLocked_does (steppedDown_renewed term leaderID) (fallen_renewed term leaderID)

theorem castVote_does (req : RequestVoteRequest) :
    (n.castVote req).Does n.MaySave fun r => Renewed action n r.1 := by
  unfold castVote
  split
  · rename_i grants
    have voted : (vote { n with votedFor := req.candidateID }).Renews n.vote :=
      HardState.renews_vote rfl (grants.1.imp_right Eq.symm)
    simp only [persistHardStateLocked, saveHardStateLocked, perform_bind, does_call]
    have renewed : Renewed action n { n with votedFor := req.candidateID } :=
      ⟨voted, fun leads => Or.inl ⟨leads, rfl⟩, Or.inr fun remains => ⟨remains, .same rfl⟩⟩
    exact ⟨voted, renewed, .refl n⟩
  · exact .refl n

theorem handleRequestVote_does (req : RequestVoteRequest) :
    (n.handleRequestVote cfg req).Does n.MaySave fun r => Renewed action n r.1 := by
  unfold handleRequestVote
  split
  · exact .refl n
  split
  · exact .refl n
  split
  · exact .refl n
  split
  · refine Does.bind (becomeFollowerLocked_does ?_ ?_)
    · exact (steppedDown_renewed req.term "").does (castVote_does req)
    · exact fallen_renewed req.term ""
  · exact castVote_does req

theorem commitTo_does (newCommit : Nat) :
    (n.commitTo newCommit).Does n.MaySave fun r => Renewed action n r.1 := by
  unfold commitTo
  split
  · simp only [persistHardStateLocked, saveHardStateLocked, perform_bind, does_call]
    exact ⟨HardState.renews_vote rfl (Or.inr rfl), .same rfl rfl rfl rfl, .refl n⟩
  · exact .refl n

theorem mergeLoop_memory (result : MergeEntriesResult) (entries : List LogEntry) :
    ∃ log, (n.mergeLoop result entries).1 = { n with log := log } := by
  induction entries generalizing n result with
  | nil => exact ⟨n.log, rfl⟩
  | cons entry entries ih =>
      unfold mergeLoop
      split
      · exact ih result
      split
      · split
        · exact ih result
        split
        · exact ⟨n.log, rfl⟩
        · unfold truncateFromLocked
          split <;> exact ⟨_, rfl⟩
      split
      · exact ⟨n.log, rfl⟩
      · exact ih (n := { n with log := n.log ++ [entry] }) _

theorem mergeEntriesLocked_memory (prevLogIndex : Nat) (entries : List LogEntry) :
    ∃ log, (n.mergeEntriesLocked prevLogIndex entries).1 = { n with log := log } := by
  simp only [mergeEntriesLocked]
  split
  · exact ⟨n.log, rfl⟩
  · exact mergeLoop_memory _ entries

theorem spliceEntries_does (req : AppendEntriesRequest) :
    (n.spliceEntries cfg req).Does n.MaySave fun r => Renewed action n r.1 := by
  rcases mergeEntriesLocked_memory (n := n) req.prevLogIndex req.entries with ⟨log, memory⟩
  unfold spliceEntries
  generalize n.mergeEntriesLocked req.prevLogIndex req.entries = outcome at memory ⊢
  rcases outcome with ⟨merged, merge⟩
  simp only at memory ⊢
  subst memory
  have spliced : Renewed action n { n with log := log } := .same rfl rfl rfl rfl
  split
  · exact spliced
  split
  · simp only [perform_bind, does_call, if_true]
    refine ⟨?_, spliced.does (commitTo_does _), failed_renewed⟩
    split <;> trivial
  · exact spliced.does (commitTo_does _)

theorem matchEntries_does (req : AppendEntriesRequest) :
    (n.matchEntries cfg req).Does n.MaySave fun r => Renewed action n r.1 := by
  have led : Renewed action n { n with leaderID := req.leaderID } := .same rfl rfl rfl rfl
  unfold matchEntries
  simp only
  split
  · exact led
  split
  · exact led
  · exact led.does (spliceEntries_does req)

theorem handleAppendEntries_does (req : AppendEntriesRequest) :
    (n.handleAppendEntries cfg req).Does n.MaySave fun r => Renewed action n r.1 := by
  unfold handleAppendEntries
  simp only
  split
  · exact .refl n
  split
  · exact .refl n
  split
  · exact .refl n
  split
  · refine Does.bind (becomeFollowerLocked_does ?_ ?_)
    · exact (steppedDown_renewed req.term req.leaderID).does (matchEntries_does req)
    · exact fallen_renewed req.term req.leaderID
  · exact matchEntries_does req

theorem collectChunk_renewed (req : InstallSnapshotRequest) :
    Renewed action n (n.collectChunk req).1 := by
  rcases collectChunk_eq n req with ⟨pending, same⟩
  rw [same]
  exact .same rfl rfl rfl rfl

theorem handleInstallSnapshot_does (req : InstallSnapshotRequest) :
    (n.handleInstallSnapshot cfg req).Does n.MaySave fun r => Renewed action n r.1 := by
  unfold handleInstallSnapshot
  split
  · exact .refl n
  split
  · exact .refl n
  split
  · exact .refl n
  split
  · refine Does.bind (becomeFollowerLocked_does ?_ ?_)
    · exact (steppedDown_renewed req.term req.leaderID).trans (collectChunk_renewed req)
    · exact (fallen_renewed req.term req.leaderID).cleared
  · exact collectChunk_renewed req

theorem finishInstall_does (req : InstallSnapshotRequest) (body : Bytes) (data : Option KVMap) :
    (n.finishInstall cfg req body data).Does n.MaySave fun r => Renewed action n r.1 := by
  have led : Renewed action n { n with leaderID := req.leaderID } := .same rfl rfl rfl rfl
  unfold finishInstall
  simp only
  split
  · exact .same rfl rfl rfl rfl
  split
  · exact led
  split
  · simp only [persistInstall, saveHardStateLocked, perform_bind, does_call, if_true]
    have failed : Renewed action n (failStorageLocked
        { n with leaderID := req.leaderID, pendingSnapshot := none } cfg) :=
      led.cleared.trans failed_renewed
    refine ⟨trivial, ⟨trivial, ⟨?_, .same rfl rfl rfl rfl, failed⟩, failed⟩, failed⟩
    exact HardState.renews_vote rfl (Or.inr rfl)
  · exact led

theorem installDecoded_does (req : InstallSnapshotRequest) (body : Bytes) (data : Option KVMap) :
    (n.installDecoded cfg req body data).Does n.MaySave fun r => Renewed action n r.1 := by
  have cleared : Renewed action n { n with pendingSnapshot := none } := .same rfl rfl rfl rfl
  unfold installDecoded
  simp only
  split
  · exact cleared
  split
  · exact cleared
  split
  · exact cleared
  split
  · refine Does.bind (becomeFollowerLocked_does ?_ ?_)
    · exact (steppedDown_renewed req.term req.leaderID).does (finishInstall_does req body data)
    · exact (fallen_renewed req.term req.leaderID).cleared
  · exact finishInstall_does req body data

theorem advanceCommitLocked_does :
    (n.advanceCommitLocked cfg).Does n.MaySave fun m => Renewed action n m := by
  unfold advanceCommitLocked
  split
  · exact .refl n
  · simp only [persistHardStateLocked, saveHardStateLocked, perform_bind, does_call]
    exact ⟨HardState.renews_vote rfl (Or.inr rfl), .same rfl rfl rfl rfl, failed_renewed⟩

theorem proposeAppend_does (command : Command) (chan : ChanId) :
    (n.proposeAppend cfg command chan).Does n.MaySave fun r => Renewed action n r.1 := by
  unfold proposeAppend
  split
  · exact .refl n
  split
  · exact .refl n
  split
  · exact .refl n
  · simp only [perform_bind, does_call]
    refine ⟨trivial, ?_, failed_renewed⟩
    have accepted : Renewed action n (n.accepted cfg
        { index := n.lastIndexLocked + 1, term := n.currentTerm, command := command } chan) :=
      .same rfl rfl rfl rfl
    exact Does.bind ((accepted.does advanceCommitLocked_does).mono fun _ renewed => renewed)

theorem candidate_renews (unwrapped : n.currentTerm + 1 < uint64Size) :
    (n.candidate cfg).vote.Renews n.vote := by
  apply HardState.renews_later
  simp only [Node.vote, hardState, candidate, Nat.mod_eq_of_lt unwrapped]
  omega

theorem startElection_does (unwrapped : n.currentTerm + 1 < uint64Size) :
    (n.startElection cfg).Does n.MaySave fun r => Renewed .startElection n r.1 := by
  unfold startElection
  split
  · exact .refl n
  · have stands : Renewed .startElection n (n.candidate cfg) := by
      refine ⟨candidate_renews unwrapped, fun leads => ?_, Or.inl rfl⟩
      cases leads
    simp only [persistHardStateLocked, saveHardStateLocked, perform_bind, does_call]
    exact ⟨candidate_renews unwrapped, stands, .same rfl rfl rfl rfl⟩

theorem becomeLeader_does (term : Nat) :
    (n.becomeLeader cfg term).Does n.MaySave fun m => Renewed (.becomeLeader term) n m := by
  unfold becomeLeader
  split
  · exact .refl n
  · rename_i eligible
    push Not at eligible
    have leads : Renewed (.becomeLeader term) n (n.leading cfg) := by
      refine ⟨HardState.renews_vote rfl (Or.inr rfl), fun _ => Or.inr ?_, Or.inr fun _ => ?_⟩
      · rw [← eligible.2.2]
        rfl
      · rw [eligible.2.1]
        exact ⟨by decide, .same rfl⟩
    have started : Renewed (.becomeLeader term) n ((n.leading cfg).withNoop cfg
        { index := n.lastIndexLocked + 1, term := term, command := { op := .noop } }) :=
      leads.trans (.same rfl rfl rfl rfl)
    simp only [perform_bind, does_call]
    exact ⟨trivial, started.does advanceCommitLocked_does, leads.trans failed_renewed⟩

theorem replicateReply_does (peer : NodeId) (req : AppendEntriesRequest)
    (resp : AppendEntriesResponse) :
    (n.replicateReply cfg peer req resp).Does n.MaySave fun r => Renewed action n r.1 := by
  unfold replicateReply
  split
  · exact Does.bind ((stepDown_does resp.term "").mono fun _ renewed => renewed)
  split
  · exact .refl n
  split
  · have acked : Renewed action n (n.acknowledge peer (req.prevLogIndex + req.entries.length)) :=
      .same rfl rfl rfl rfl
    exact Does.bind ((acked.does advanceCommitLocked_does).mono fun _ renewed => renewed)
  split
  · exact .same rfl rfl rfl rfl
  · exact .refl n

theorem sendSnapshotReply_does (term : Nat) (resp : InstallSnapshotResponse) :
    (n.sendSnapshotReply cfg term resp).Does n.MaySave fun r => Renewed action n r.1 := by
  unfold sendSnapshotReply
  split
  · exact Does.bind ((stepDown_does resp.term "").mono fun _ renewed => renewed)
  · exact .refl n

theorem compact_does (snapshot : Snapshot) :
    (n.compact snapshot).Does n.MaySave fun m => Renewed action n m := by
  unfold compact
  split
  · exact .refl n
  · simp only [perform_bind, does_call]
    exact ⟨trivial, .same rfl rfl rfl rfl, .refl n⟩

theorem newNode_does (loaded : Loaded) :
    (newNode loaded).Does (restored loaded).MaySave fun result =>
      ∀ n, result = some n → n = restored loaded := by
  have same : ∀ n, some (restored loaded) = some n → n = restored loaded := by
    intro n present
    exact (Option.some.inj present).symm
  have missing : ∀ n, (none : Option Node) = some n → n = restored loaded := by
    intro n present
    cases present
  have persisted : (if loaded.hardState.commitIndex ≠ (restored loaded).commitIndex then
      (do if ← (restored loaded).persistHardStateLocked then pure (some (restored loaded))
          else pure none)
      else pure (some (restored loaded)) : Program StoreOp (Option Node)).Does
        (restored loaded).MaySave
      fun result => ∀ n, result = some n → n = restored loaded := by
    split
    · simp only [persistHardStateLocked, saveHardStateLocked, perform_bind, does_call]
      exact ⟨.refl _, same, missing⟩
    · exact same
  unfold newNode
  simp only
  split
  · simp only [perform_bind, does_call]
    exact ⟨trivial, persisted, missing⟩
  · exact persisted

end Node

end GoRaftKV.Raft
