import GoRaftKV.Raft.Durable

/-! The locked sections against their store. `P` relates the files to memory throughout, `inter`
holds of memory at every point where a crash may strike, and each lemma lists the steps of memory
that `inter` must survive. -/

namespace GoRaftKV.Raft

open Storage Library Program

/-- Files that agree with some memory the section passes through. -/
def Stops (P : Disk → Node → Prop) (inter : Node → Prop) (disk : Disk) : Prop :=
  ∃ k, inter k ∧ P disk k

namespace Node

variable {P : Disk → Node → Prop} (tracks : Tracks P) {inter : Node → Prop} {cfg : Config}
  {disk : Disk} {n : Node}

include tracks

theorem saveHardState_tracked {α : Type} {m : Node} {next : Bool → Program StoreOp α}
    {post : α → Disk → Prop} (holds : P disk n) (start : inter n) (files : SameFiles n m)
    (changed : inter m)
    (go : ∀ disk, P disk m → (next true).wp store post (Stops P inter) disk) :
    (call (.saveHardState (m.hardState m.commitIndex)) next).wp store post (Stops P inter)
      disk := by
  have saved := tracks.save holds files
  exact wp_saveHardState (go _ saved) ⟨n, start, holds⟩ ⟨m, changed, saved⟩

omit tracks in
theorem steppedDown_files (n : Node) (cfg : Config) (term : Nat) (leaderID : NodeId) :
    SameFiles n (n.steppedDown cfg term leaderID) := by
  rw [steppedDown, followerAt_eq]
  split <;> exact ⟨rfl, rfl, rfl⟩

theorem becomeFollowerLocked_tracked {term : Nat} {leaderID : NodeId}
    {post : Node × Bool → Disk → Prop} (holds : P disk n) (start : inter n)
    (down : inter (n.steppedDown cfg term leaderID))
    (go : ∀ disk, P disk (n.steppedDown cfg term leaderID) →
      post (n.steppedDown cfg term leaderID, true) disk) :
    (n.becomeFollowerLocked cfg term leaderID).wp store post (Stops P inter) disk := by
  have hardState : (n.followerAt term leaderID).hardState (n.followerAt term leaderID).commitIndex =
      (n.steppedDown cfg term leaderID).hardState
      (n.steppedDown cfg term leaderID).commitIndex := by
    rw [steppedDown]
    split <;> rfl
  simp only [becomeFollowerLocked, persistHardStateLocked, saveHardStateLocked, perform_bind]
  rw [hardState]
  refine saveHardState_tracked tracks holds start (steppedDown_files n cfg term leaderID) down
    fun disk saved => ?_
  have ending := go disk saved
  unfold steppedDown at ending
  simp only [if_true]
  split <;> rename_i role
  · rwa [if_pos role] at ending
  · rwa [if_neg role] at ending

section Votes

variable {req : RequestVoteRequest} {post : Node × RequestVoteResponse → Prop}

theorem castVote_tracked (holds : P disk n) (start : inter n)
    (vote : (n.votedFor = "" ∨ n.votedFor = req.candidateID) → n.upToDate req = true →
      inter { n with votedFor := req.candidateID } ∧
      post ({ n with votedFor := req.candidateID }, { term := n.currentTerm, voteGranted := true }))
    (refuse : post (n, { term := n.currentTerm })) :
    (n.castVote req).wp store (fun r disk => P disk r.1 ∧ post r) (Stops P inter) disk := by
  unfold castVote
  split
  · rename_i grants
    obtain ⟨voted, granted⟩ := vote grants.1 grants.2
    simp only [persistHardStateLocked, saveHardStateLocked, perform_bind]
    exact saveHardState_tracked tracks holds start ⟨rfl, rfl, rfl⟩ voted
      fun disk saved => ⟨saved, granted⟩
  · exact ⟨holds, refuse⟩

theorem handleRequestVote_tracked (holds : P disk n) (start : inter n)
    (follow : n.currentTerm < req.term → inter (n.steppedDown cfg req.term ""))
    (vote : ∀ m, inter m → cfg.isKnownRemotePeerLocked req.candidateID = true →
      m.currentTerm = req.term →
      (m.votedFor = "" ∨ m.votedFor = req.candidateID) → m.upToDate req = true →
      inter { m with votedFor := req.candidateID } ∧
      post ({ m with votedFor := req.candidateID }, { term := m.currentTerm, voteGranted := true }))
    (refuse : ∀ m, inter m → post (m, { term := m.currentTerm })) :
    (n.handleRequestVote cfg req).wp store (fun r disk => P disk r.1 ∧ post r) (Stops P inter)
      disk := by
  have idle : P disk n ∧ post (n, { term := n.currentTerm }) := ⟨holds, refuse n start⟩
  unfold handleRequestVote
  split
  · exact idle
  split
  · exact idle
  rename_i known
  split
  · exact idle
  rename_i current
  split
  · rename_i newer
    have down := follow newer
    refine wp_bind _ _ _ (becomeFollowerLocked_tracked tracks holds start down fun disk saved => ?_)
    have term : (n.steppedDown cfg req.term "").currentTerm = req.term := by
      rw [steppedDown, followerAt_eq]
      split <;> exact max_eq_right newer.le
    exact castVote_tracked tracks saved down (vote _ down (by simpa using known) term)
      (refuse _ down)
  · exact castVote_tracked tracks holds start (vote n start (by simpa using known) (by omega))
      (refuse n start)

end Votes

section Appends

variable {req : AppendEntriesRequest} {post : Node × AppendEntriesResponse → Prop}
  {merged : Node → Prop}

theorem commitTo_tracked {newCommit : Nat} (holds : P disk n) (start : inter n)
    (commit : n.commitIndex < newCommit → inter { n with commitIndex := newCommit } ∧
      post ({ n with commitIndex := newCommit },
        { term := n.currentTerm, success := true, lastLogIndex := n.lastIndexLocked }))
    (keep : newCommit ≤ n.commitIndex →
      post (n, { term := n.currentTerm, success := true, lastLogIndex := n.lastIndexLocked })) :
    (n.commitTo newCommit).wp store (fun r disk => P disk r.1 ∧ post r) (Stops P inter) disk := by
  unfold commitTo
  split
  · rename_i later
    obtain ⟨committed, success⟩ := commit later
    simp only [persistHardStateLocked, saveHardStateLocked, perform_bind]
    exact saveHardState_tracked tracks holds start ⟨rfl, rfl, rfl⟩ committed
      fun disk saved => ⟨saved, success⟩
  · rename_i later
    exact ⟨holds, keep (Nat.le_of_not_lt later)⟩

/-- The request and the log agree on the previous entry and on what follows it in the request. -/
structure Matches (n : Node) (req : AppendEntriesRequest) : Prop where
  compacted : n.snapshot.lastIncludedIndex ≤ req.prevLogIndex
  previous : n.termAtLocked req.prevLogIndex = some req.prevLogTerm
  ordered : Contiguous req.prevLogIndex (n.uncovered req.entries)

def requestEnd (n : Node) (req : AppendEntriesRequest) : Nat :=
  req.prevLogIndex + (n.uncovered req.entries).length

/-- What a merge must give: the memory after it, at a crash inside it, and after the commit. -/
structure MergeEnd (inter : Node → Prop) (post : Node × AppendEntriesResponse → Prop) (n : Node)
    (req : AppendEntriesRequest) (m : Node) (rest : List LogEntry) (replaced : Bool) : Prop where
  merged : inter m
  torn : replaced = false → ∀ count, inter { n with log := n.log ++ rest.take count }
  committed : m.commitIndex < min req.leaderCommit (n.requestEnd req) →
    inter { m with commitIndex := min req.leaderCommit (n.requestEnd req) } ∧
    post ({ m with commitIndex := min req.leaderCommit (n.requestEnd req) },
      { term := m.currentTerm, success := true, lastLogIndex := m.lastIndexLocked })
  kept : min req.leaderCommit (n.requestEnd req) ≤ m.commitIndex →
    post (m, { term := m.currentTerm, success := true, lastLogIndex := m.lastIndexLocked })

theorem spliceEntries_tracked (wf : WellFormed n)
    (compacted : n.snapshot.lastIncludedIndex ≤ req.prevLogIndex)
    (previous : n.termAtLocked req.prevLogIndex = some req.prevLogTerm)
    (safe : n.SpliceSafe req.entries) (holds : P disk n) (start : inter n)
    (rewrite : ∀ m result keep rest, n.spliced req.entries ≠ [] →
      Splice n (n.requestEnd req) m result keep rest →
        P (Disk.complete (.replaceEntries m.log) disk) m)
    (merge : ∀ m result keep rest, n.Matches req → result.conflictIndex = 0 →
      Merged n req.prevLogIndex { lastNewIndex := n.requestEnd req } req.entries (m, result) →
      Splice n (n.requestEnd req) m result keep rest →
        MergeEnd inter post n req m rest result.replaced)
    (refuse : ∀ resp, resp.success = false → resp.term = n.currentTerm → post (n, resp)) :
    (n.spliceEntries cfg req).wp store (fun r disk => P disk r.1 ∧ post r) (Stops P inter)
      disk := by
  have bound := termAtLocked_bound wf.contiguous compacted previous
  unfold spliceEntries
  rcases mergeEntriesLocked_cases wf.contiguous bound req.entries with
    ⟨conflict, positive, invalid⟩ | ⟨ordered, merged⟩
  · simp only [invalid, if_pos positive]
    exact ⟨holds, refuse _ rfl rfl⟩
  generalize n.mergeEntriesLocked req.prevLogIndex req.entries = outcome at merged ⊢
  obtain ⟨m, result⟩ := outcome
  rcases merged.splice wf bound ordered safe rfl with ⟨same, conflict⟩ | ⟨none, keep, rest, splice⟩
  · simp only [if_pos conflict]
    subst same
    exact ⟨holds, refuse _ rfl rfl⟩
  replace splice : Splice n (n.requestEnd req) m result keep rest := splice
  replace none : result.conflictIndex = 0 := none
  obtain ⟨after, torn, committed, kept⟩ :=
    merge m result keep rest ⟨compacted, previous, ordered⟩ none merged splice
  simp only [none, Nat.lt_irrefl, if_false, splice.newest]
  have commits (disk : Disk) (tracked : P disk m) :
      (m.commitTo (min req.leaderCommit (n.requestEnd req))).wp store
        (fun r disk => P disk r.1 ∧ post r) (Stops P inter) disk :=
    commitTo_tracked tracks tracked after committed kept
  cases changed : result.changed with
  | false =>
      have empty := splice.unchanged changed
      have appended : result.replaced = false := by
        cases replaced : result.replaced with
        | false => rfl
        | true => rw [splice.replaced replaced] at changed; cases changed
      have same : m = n := by
        rw [splice.memory, (splice.appended appended).1, empty, List.take_length, List.append_nil]
      have ending := commits disk (by rw [same]; exact holds)
      simpa only [Bool.false_eq_true, if_false] using ending
  | true =>
      simp only [if_true, perform_bind]
      cases replaced : result.replaced with
      | true =>
          have written := rewrite m result keep rest (merged.conflict rfl replaced) splice
          simp only [if_true]
          exact wp_renamed (fun _ => rfl) (commits _ written) ⟨n, start, holds⟩ ⟨m, after, written⟩
      | false =>
          obtain ⟨whole, entries⟩ := splice.appended replaced
          have next := splice.next
          rw [whole] at next
          have memory : m = { n with log := n.log ++ rest } := by
            rw [splice.memory, whole, List.take_length]
          simp only [Bool.false_eq_true, if_false, entries]
          refine wp_call _ _ _ ?_ fun reached => ?_
          · refine commits _ ?_
            by_cases empty : rest = []
            · have same : m = n := by rw [memory, empty, List.append_nil]
              have unwritten : store.complete (.appendEntries rest) disk = disk := by
                simp [store, Disk.complete, empty]
              rw [unwritten, same]
              exact holds
            · rw [memory]
              exact tracks.append holds wf empty next ⟨rfl, rfl, rfl⟩ rfl
          · obtain ⟨count, partly⟩ := tracks.torn reached holds wf next
            exact ⟨_, torn replaced count, partly⟩

theorem matchEntries_tracked (wf : WellFormed n) (safe : n.SpliceSafe req.entries)
    (holds : P disk n) (led : inter { n with leaderID := req.leaderID })
    (rewrite : ∀ m result keep rest, P disk { n with leaderID := req.leaderID } →
      spliced { n with leaderID := req.leaderID } req.entries ≠ [] →
      Splice { n with leaderID := req.leaderID } (n.requestEnd req) m result keep rest →
      P (Disk.complete (.replaceEntries m.log) disk) m)
    (merge : ∀ m result keep rest, Matches { n with leaderID := req.leaderID } req →
      result.conflictIndex = 0 →
      Merged { n with leaderID := req.leaderID } req.prevLogIndex
        { lastNewIndex := n.requestEnd req } req.entries (m, result) →
      Splice { n with leaderID := req.leaderID } (n.requestEnd req) m result keep rest →
      MergeEnd inter post { n with leaderID := req.leaderID } req m rest result.replaced)
    (refuse : ∀ resp, resp.success = false → resp.term = n.currentTerm →
      post ({ n with leaderID := req.leaderID }, resp)) :
    (n.matchEntries cfg req).wp store (fun r disk => P disk r.1 ∧ post r) (Stops P inter) disk := by
  have renamed := tracks.same holds (m := { n with leaderID := req.leaderID }) ⟨rfl, rfl, rfl⟩ rfl
  unfold matchEntries
  simp only
  split
  · exact ⟨renamed, refuse _ rfl rfl⟩
  rename_i after
  split
  · exact ⟨renamed, refuse _ rfl rfl⟩
  rename_i found
  refine spliceEntries_tracked tracks (n := { n with leaderID := req.leaderID })
    ⟨wf.contiguous, wf.compacted, wf.applied, wf.committed⟩ (Nat.le_of_not_lt after)
    (not_not.mp found) (safe.congr rfl rfl) renamed led ?_ merge refuse
  exact fun m result keep rest conflict splice => rewrite m result keep rest renamed conflict splice

theorem handleAppendEntries_tracked (wf : WellFormed n) (safe : n.SpliceSafe req.entries)
    (holds : P disk n) (start : inter n)
    (follow : (n.currentTerm < req.term ∨ n.role ≠ .follower) → n.currentTerm ≤ req.term →
      inter (n.steppedDown cfg req.term req.leaderID))
    (lead : ∀ m, inter m → m.role = .follower → m.currentTerm = req.term →
      inter { m with leaderID := req.leaderID })
    (rewrite : ∀ disk k m result keep rest, inter k → SameFiles n k → P disk k →
      n.spliced req.entries ≠ [] → Splice k (k.requestEnd req) m result keep rest →
        P (Disk.complete (.replaceEntries m.log) disk) m)
    (merge : ∀ k m result keep rest, inter k → k.role = .follower → k.currentTerm = req.term →
      Matches k req → result.conflictIndex = 0 →
      Merged k req.prevLogIndex { lastNewIndex := k.requestEnd req } req.entries (m, result) →
      Splice k (k.requestEnd req) m result keep rest →
        MergeEnd inter post k req m rest result.replaced)
    (refuse : ∀ m resp, inter m → resp.success = false → resp.term = m.currentTerm →
      post (m, resp)) :
    (n.handleAppendEntries cfg req).wp store (fun r disk => P disk r.1 ∧ post r) (Stops P inter)
      disk := by
  have idle : P disk n ∧ post (n, { term := n.currentTerm, lastLogIndex := n.lastIndexLocked }) :=
    ⟨holds, refuse n _ start rfl rfl⟩
  have accept (disk : Disk) (m : Node) (tracked : P disk m) (middle : inter m)
      (files : SameFiles n m) (wf : WellFormed m) (role : m.role = .follower)
      (term : m.currentTerm = req.term) :
      (m.matchEntries cfg req).wp store (fun r disk => P disk r.1 ∧ post r) (Stops P inter)
      disk := by
    have led := lead m middle role term
    refine matchEntries_tracked tracks wf (safe.congr files.snapshot files.log) tracked led ?_ ?_ ?_
    · intro k result keep rest tracked conflict splice
      rw [spliced_congr (n := n) (m := { m with leaderID := req.leaderID }) files.snapshot
        files.log] at conflict
      exact rewrite disk { m with leaderID := req.leaderID } k result keep rest led
        ⟨files.snapshot, files.log, files.applied⟩ tracked conflict splice
    · exact fun k result keep rest =>
        merge { m with leaderID := req.leaderID } k result keep rest led role term
    · exact fun resp => refuse _ resp led
  unfold handleAppendEntries
  simp only
  split
  · exact idle
  split
  · exact idle
  split
  · exact idle
  rename_i current
  split
  · rename_i older
    have down := follow older (Nat.le_of_not_lt current)
    refine wp_bind _ _ _ (becomeFollowerLocked_tracked tracks holds start down fun disk saved => ?_)
    have term : (n.steppedDown cfg req.term req.leaderID).currentTerm = req.term := by
      rw [steppedDown, followerAt_eq]
      split <;> exact max_eq_right (Nat.le_of_not_lt current)
    exact accept disk _ saved down (steppedDown_files n cfg req.term req.leaderID)
      ((Move.follow n req.term req.leaderID).upholds wf).wellFormed
      (steppedDown_eq n cfg req.term req.leaderID).1 term
  · rename_i settled
    push Not at settled
    exact accept disk n holds start (.refl n) wf settled.2 (by omega)

end Appends

section Leadership

theorem advanceCommitLocked_tracked {post : Node → Disk → Prop} (holds : P disk n) (start : inter n)
    (commit : ∀ index, n.commitTarget cfg n.lastIndexLocked = some index →
      inter { n with commitIndex := index })
    (go : ∀ disk m, P disk m → inter m → post m disk) :
    (n.advanceCommitLocked cfg).wp store post (Stops P inter) disk := by
  unfold advanceCommitLocked
  cases target : n.commitTarget cfg n.lastIndexLocked with
  | none => exact go disk n holds start
  | some index =>
      have committed := commit index target
      simp only [persistHardStateLocked, saveHardStateLocked, perform_bind]
      exact saveHardState_tracked tracks holds start ⟨rfl, rfl, rfl⟩ committed
        fun disk saved => go disk _ saved committed

theorem appendEntry_tracked {α : Type} {m : Node} {entry : LogEntry}
    {next : Bool → Program StoreOp α} {post : α → Disk → Prop} (wf : WellFormed n)
    (following : entry.index = n.lastIndexLocked + 1) (holds : P disk n) (start : inter n)
    (files : SameFiles { n with log := n.log ++ [entry] } m)
    (hardState : m.hardState m.commitIndex = n.hardState n.commitIndex) (changed : inter m)
    (go : ∀ disk, P disk m → (next true).wp store post (Stops P inter) disk) :
    (call (.appendEntries [entry]) next).wp store post (Stops P inter) disk := by
  have place : Contiguous (n.snapshot.lastIncludedIndex + n.log.length) [entry] := by
    rw [lastIndexLocked_eq wf.contiguous] at following
    simpa using following
  refine ⟨go _ (tracks.append holds wf (by simp) place files hardState), fun reached => ?_⟩
  obtain ⟨count, partly⟩ := tracks.torn reached holds wf place
  cases count with
  | zero => exact ⟨n, start, tracks.same partly ⟨rfl, by simp, rfl⟩ rfl⟩
  | succ count =>
      refine ⟨m, changed, tracks.same partly ⟨files.snapshot, ?_, files.applied⟩ hardState⟩
      simpa using files.log

theorem proposeAppend_tracked {command : Command} {chan : ChanId}
    {post : Node × Except NodeError Nat → Prop} (wf : WellFormed n) (holds : P disk n)
    (start : inter n) (accept : n.role = .leader → inter (n.accepted cfg
      { index := n.lastIndexLocked + 1, term := n.currentTerm, command := command } chan))
    (commit : ∀ m index, inter m → m.role = .leader →
      m.commitTarget cfg m.lastIndexLocked = some index → inter { m with commitIndex := index })
    (success : ∀ m, inter m → post (m, .ok (n.lastIndexLocked + 1)))
    (refuse : ∀ err, post (n, .error err)) :
    (n.proposeAppend cfg command chan).wp store (fun r disk => P disk r.1 ∧ inter r.1 ∧ post r)
      (Stops P inter) disk := by
  unfold proposeAppend
  split
  · exact ⟨holds, start, refuse _⟩
  split
  · exact ⟨holds, start, refuse _⟩
  split
  · exact ⟨holds, start, refuse _⟩
  rename_i leads
  have leader := not_not.mp leads
  simp only [perform_bind]
  refine appendEntry_tracked tracks (m := n.accepted cfg _ chan) wf rfl holds start ⟨rfl, rfl, rfl⟩
    rfl (accept leader) fun disk saved => ?_
  simp only [if_true]
  refine wp_bind _ _ _ (advanceCommitLocked_tracked tracks saved (accept leader) ?_ ?_)
  · exact fun index => commit _ index (accept leader) leader
  · exact fun disk m tracked middle => ⟨tracked, middle, success m middle⟩

theorem startElection_tracked {post : Node × Option RequestVoteRequest → Prop} (holds : P disk n)
    (start : inter n)
    (stand : n.role ≠ .leader → n.stopped = false → inter (n.candidate cfg) ∧
      post (n.candidate cfg, some
        { term := (n.candidate cfg).currentTerm, candidateID := cfg.id
          lastLogIndex := n.lastIndexLocked, lastLogTerm := n.lastTermLocked }))
    (refuse : post (n, none)) :
    (n.startElection cfg).wp store (fun r disk => P disk r.1 ∧ post r) (Stops P inter) disk := by
  unfold startElection
  split
  · exact ⟨holds, refuse⟩
  · rename_i eligible
    push Not at eligible
    obtain ⟨standing, campaign⟩ := stand eligible.2.1 (by simpa using eligible.1)
    simp only [persistHardStateLocked, saveHardStateLocked, perform_bind]
    exact saveHardState_tracked tracks holds start ⟨rfl, rfl, rfl⟩ standing
      fun disk saved => ⟨saved, campaign⟩

theorem becomeLeader_tracked {term : Nat} (wf : WellFormed n) (holds : P disk n) (start : inter n)
    (lead : n.role = .candidate → n.currentTerm = term → inter ((n.leading cfg).withNoop cfg
      { index := n.lastIndexLocked + 1, term := term, command := { op := .noop } }))
    (commit : ∀ m index, inter m → m.role = .leader →
      m.commitTarget cfg m.lastIndexLocked = some index → inter { m with commitIndex := index }) :
    (n.becomeLeader cfg term).wp store (fun m disk => P disk m ∧ inter m) (Stops P inter) disk := by
  unfold becomeLeader
  split
  · exact ⟨holds, start⟩
  · rename_i eligible
    push Not at eligible
    have leader := lead eligible.2.1 eligible.2.2
    simp only [perform_bind]
    refine appendEntry_tracked tracks (m := (n.leading cfg).withNoop cfg _) wf rfl holds start
      ⟨rfl, rfl, rfl⟩ rfl leader fun disk saved => ?_
    simp only [if_true]
    refine advanceCommitLocked_tracked tracks saved leader ?_ fun disk m tracked middle =>
      ⟨tracked, middle⟩
    exact fun index => commit _ index leader rfl

theorem stepDown_tracked {term : Nat} {leaderID : NodeId} (holds : P disk n) (start : inter n)
    (down : inter (n.steppedDown cfg term leaderID)) :
    (n.becomeFollowerLocked cfg term leaderID).wp store (fun r disk => P disk r.1 ∧ inter r.1)
      (Stops P inter) disk :=
  becomeFollowerLocked_tracked tracks holds start down fun _ saved => ⟨saved, down⟩

theorem replicateReply_tracked {peer : NodeId} {req : AppendEntriesRequest}
    {resp : AppendEntriesResponse} (holds : P disk n) (start : inter n)
    (down : n.currentTerm < resp.term → inter (n.steppedDown cfg resp.term ""))
    (acknowledge : n.role = .leader → n.currentTerm = req.term → resp.success = true →
      inter (n.acknowledge peer (req.prevLogIndex + req.entries.length)))
    (retry : n.role = .leader → ∀ nextIndex, inter { n with nextIndex := nextIndex })
    (commit : ∀ m index, inter m → m.role = .leader →
      m.commitTarget cfg m.lastIndexLocked = some index → inter { m with commitIndex := index }) :
    (n.replicateReply cfg peer req resp).wp store (fun r disk => P disk r.1 ∧ inter r.1)
      (Stops P inter) disk := by
  unfold replicateReply
  split
  · rename_i newer
    have stepped := down newer
    exact wp_bind _ _ _ (becomeFollowerLocked_tracked tracks holds start stepped
      fun disk saved => ⟨saved, stepped⟩)
  split
  · exact ⟨holds, start⟩
  rename_i current
  push Not at current
  split
  · rename_i success
    have acked := acknowledge current.1 current.2 success
    refine wp_bind _ _ _ (advanceCommitLocked_tracked tracks
      (tracks.same holds ⟨rfl, rfl, rfl⟩ rfl) acked ?_ fun disk m tracked middle =>
      ⟨tracked, middle⟩)
    exact fun index => commit _ index acked current.1
  split
  · exact ⟨tracks.same holds ⟨rfl, rfl, rfl⟩ rfl, retry current.1 _⟩
  · exact ⟨holds, start⟩

theorem sendSnapshotReply_tracked {term : Nat} {resp : InstallSnapshotResponse} (holds : P disk n)
    (start : inter n) (down : n.currentTerm < resp.term → inter (n.steppedDown cfg resp.term "")) :
    (n.sendSnapshotReply cfg term resp).wp store (fun r disk => P disk r.1 ∧ inter r.1)
      (Stops P inter) disk := by
  unfold sendSnapshotReply
  split
  · rename_i newer
    have stepped := down newer
    exact wp_bind _ _ _ (becomeFollowerLocked_tracked tracks holds start stepped
      fun disk saved => ⟨saved, stepped⟩)
  · exact ⟨holds, start⟩

end Leadership

theorem handleInstallSnapshot_tracked {req : InstallSnapshotRequest}
    {post : Node × InstallProgress → Prop} (holds : P disk n) (start : inter n)
    (follow : (n.currentTerm < req.term ∨ n.role ≠ .follower) → n.currentTerm ≤ req.term →
      inter (n.steppedDown cfg req.term req.leaderID))
    (collect : ∀ m, inter m → m.role = .follower → m.currentTerm = req.term →
      post (m.collectChunk req))
    (refuse : post (n, .answer { term := n.currentTerm })) :
    (n.handleInstallSnapshot cfg req).wp store (fun r disk => P disk r.1 ∧ post r) (Stops P inter)
      disk := by
  have idle := And.intro holds refuse
  have chunk (disk : Disk) (m : Node) (tracked : P disk m) : P disk (m.collectChunk req).1 := by
    obtain ⟨pending, same⟩ := collectChunk_eq m req
    rw [same]
    exact tracks.same tracked ⟨rfl, rfl, rfl⟩ rfl
  unfold handleInstallSnapshot
  split
  · exact idle
  split
  · exact idle
  split
  · exact idle
  rename_i current
  split
  · rename_i older
    have down := follow older (Nat.le_of_not_lt current)
    refine wp_bind _ _ _ (becomeFollowerLocked_tracked tracks holds start down fun disk saved => ?_)
    have term : (n.steppedDown cfg req.term req.leaderID).currentTerm = req.term := by
      rw [steppedDown, followerAt_eq]
      split <;> exact max_eq_right (Nat.le_of_not_lt current)
    exact ⟨chunk disk _ saved, collect _ down (steppedDown_eq n cfg req.term req.leaderID).1 term⟩
  · rename_i settled
    push Not at settled
    exact ⟨chunk disk n holds, collect n start settled.2 (by omega)⟩

end Node

/-- Files from which `Load` recovers some memory the section passes through. -/
def StopsRecovered (inter : Node → Prop) (disk : Disk) : Prop := ∃ k, inter k ∧ Recovers disk k

theorem Stops.recovered {base : Snapshot} {inter : Node → Prop} {disk : Disk}
    (wf : ∀ k, inter k → WellFormed k) (stops : Stops (Backed base) inter disk) :
    StopsRecovered inter disk := by
  obtain ⟨k, middle, backed⟩ := stops
  exact ⟨k, middle, backed.recovers (wf k middle)⟩

namespace Node

section Install

variable {inter : Node → Prop} {cfg : Config} {disk : Disk} {n : Node}

theorem persistInstall_tracked {snapshot : Snapshot} {length : Nat} (wf : WellFormed n)
    (durable : Durable disk n.snapshot n) (newer : n.commitIndex < snapshot.lastIncludedIndex)
    (start : inter n)
    (done : inter (n.installed snapshot (n.logAfterSnapshotLocked snapshot)
      snapshot.lastIncludedIndex)) :
    (n.persistInstall cfg snapshot length).wp store
      (fun r disk => r = (n.installed snapshot (n.logAfterSnapshotLocked snapshot)
          snapshot.lastIncludedIndex,
        { term := n.currentTerm, success := true, bytesReceived := length }) ∧
        Durable disk r.1.snapshot r.1)
      (StopsRecovered inter) disk := by
  have compacted := wf.compacted
  have applied := wf.applied
  have later : n.snapshot.lastIncludedIndex < snapshot.lastIncludedIndex := by omega
  have rest := logAfterSnapshotLocked_contiguous wf.contiguous later
  have whole : (n.logAfterSnapshotLocked snapshot).filter
      (fun entry => snapshot.lastIncludedIndex < entry.index) =
      n.logAfterSnapshotLocked snapshot := by
    rw [rest.filter_lt le_rfl, Nat.sub_self, List.drop_zero]
  have before : StopsRecovered inter disk := ⟨n, start, Backed.recovers ⟨Or.inl rfl, durable⟩ wf⟩
  have after (disk : Disk) {rewrite : Bool}
      (loads : disk.load = .ok ⟨n.hardState n.commitIndex, n.logAfterSnapshotLocked snapshot,
        snapshot, rewrite⟩) : StopsRecovered inter disk := by
    refine ⟨_, done, snapshot, n.commitIndex, rewrite, Or.inl rfl, newer.le, ?_⟩
    simp only [installed, whole]
    exact loads
  -- The snapshot file is the first to change; from then on `Load` reads the installation.
  have saved : StopsRecovered inter { disk with snapshot := some snapshot } := by
    obtain ⟨rewrite, loads⟩ := @Records.load_newer _ _ { disk with snapshot := some snapshot }
      durable.records _ rfl later
    simp only [durable.hardState, Option.getD_some, survivors_eq wf.contiguous later] at loads
    exact after _ loads
  have records := records_image rest
  have replaced : StopsRecovered inter { disk with
      snapshot := some snapshot
      wal := some (walImage snapshot.lastIncludedIndex snapshot.lastIncludedTerm
        (n.logAfterSnapshotLocked snapshot)) } := by
    have loads := @Disk.load_image _ _ { disk with snapshot := some snapshot } rest rfl
    simp only [durable.hardState] at loads
    exact after _ loads
  have final : Durable { disk with
      snapshot := some snapshot
      wal := some (walImage snapshot.lastIncludedIndex snapshot.lastIncludedTerm
        (n.logAfterSnapshotLocked snapshot))
      hardState := some (n.hardState snapshot.lastIncludedIndex) } snapshot
      (n.installed snapshot (n.logAfterSnapshotLocked snapshot) snapshot.lastIncludedIndex) :=
    ⟨rfl, rfl, records⟩
  unfold persistInstall
  simp only [saveHardStateLocked, perform_bind, max_eq_right newer.le]
  refine wp_renamed (fun _ => rfl) (wp_renamed (fun _ => rfl) ?_ saved replaced) before saved
  refine wp_saveHardState ⟨rfl, final⟩ replaced ?_
  exact ⟨_, done, Backed.recovers ⟨Or.inl rfl, final⟩ (upholds_install wf newer).wellFormed⟩

def requestSnapshot (req : InstallSnapshotRequest) (data : Option KVMap) : Snapshot :=
  { lastIncludedIndex := req.lastIncludedIndex, lastIncludedTerm := req.lastIncludedTerm
    data := data, history := req.history }

variable {req : InstallSnapshotRequest} {body : Bytes} {data : Option KVMap}
  {post : Node × InstallSnapshotResponse → Prop}

theorem finishInstall_tracked (wf : WellFormed n) (durable : Durable disk n.snapshot n)
    (led : inter { n with leaderID := req.leaderID })
    (install : ∀ progress, n.commitIndex < req.lastIncludedIndex →
      n.pendingSnapshot = some progress → progress.matches req = true →
        progress.buffer.length = body.length →
      inter (installed { n with leaderID := req.leaderID } (requestSnapshot req data)
        (n.logAfterSnapshotLocked (requestSnapshot req data)) req.lastIncludedIndex) ∧
      post (installed { n with leaderID := req.leaderID } (requestSnapshot req data)
        (n.logAfterSnapshotLocked (requestSnapshot req data)) req.lastIncludedIndex,
        { term := n.currentTerm, success := true, bytesReceived := body.length }))
    (stale : req.lastIncludedIndex ≤ n.commitIndex →
      post ({ n with leaderID := req.leaderID, pendingSnapshot := none },
        { term := n.currentTerm, success := true }))
    (refuse : post ({ n with leaderID := req.leaderID }, { term := n.currentTerm })) :
    (n.finishInstall cfg req body data).wp store (fun r disk => Durable disk r.1.snapshot r.1 ∧
      post r) (StopsRecovered inter) disk := by
  unfold finishInstall
  simp only
  split
  · rename_i old
    exact ⟨durable.of_same rfl rfl rfl, stale old⟩
  rename_i newer
  have later := Nat.lt_of_not_le newer
  split
  · exact ⟨durable.of_same rfl rfl rfl, refuse⟩
  rename_i progress pending
  split
  · rename_i same
    obtain ⟨done, success⟩ := install progress later pending same.1 same.2
    refine wp_mono _ _ ?_ (fun _ stops => stops)
      (persistInstall_tracked (n := { n with leaderID := req.leaderID })
        ⟨wf.contiguous, wf.compacted, wf.applied, wf.committed⟩ (durable.of_same rfl rfl rfl) later
        led done)
    rintro r disk ⟨rfl, final⟩
    exact ⟨final, success⟩
  · exact ⟨durable.of_same rfl rfl rfl, refuse⟩

theorem installDecoded_tracked (sound : ∀ m, inter m → WellFormed m)
    (durable : Durable disk n.snapshot n) (start : inter n)
    (follow : (n.currentTerm < req.term ∨ n.role ≠ .follower) → n.currentTerm ≤ req.term →
      inter (n.steppedDown cfg req.term req.leaderID))
    (lead : ∀ m, inter m → m.role = .follower → m.currentTerm = req.term →
      inter { m with leaderID := req.leaderID })
    (install : ∀ m progress, inter m → m.role = .follower → m.currentTerm = req.term →
      m.commitIndex < req.lastIncludedIndex → m.pendingSnapshot = some progress →
      progress.matches req = true → progress.buffer.length = body.length →
      inter (installed { m with leaderID := req.leaderID } (requestSnapshot req data)
        (m.logAfterSnapshotLocked (requestSnapshot req data)) req.lastIncludedIndex) ∧
      post (installed { m with leaderID := req.leaderID } (requestSnapshot req data)
        (m.logAfterSnapshotLocked (requestSnapshot req data)) req.lastIncludedIndex,
        { term := m.currentTerm, success := true, bytesReceived := body.length }))
    (stale : ∀ m, inter m → m.role = .follower → m.currentTerm = req.term →
      req.lastIncludedIndex ≤ m.commitIndex →
      post ({ m with leaderID := req.leaderID, pendingSnapshot := none },
        { term := m.currentTerm, success := true }))
    (refuse : ∀ m, inter m → post (m, { term := m.currentTerm }) ∧
      post ({ m with pendingSnapshot := none }, { term := m.currentTerm })) :
    (n.installDecoded cfg req body data).wp store (fun r disk => Durable disk r.1.snapshot r.1 ∧
      post r) (StopsRecovered inter) disk := by
  have idle : Durable disk n.snapshot { n with pendingSnapshot := none } ∧
      post ({ n with pendingSnapshot := none }, { term := n.currentTerm }) :=
    ⟨durable.of_same rfl rfl rfl, (refuse n start).2⟩
  have finish (disk : Disk) (m : Node) (tracked : Durable disk m.snapshot m) (middle : inter m)
      (role : m.role = .follower) (term : m.currentTerm = req.term) :
      (m.finishInstall cfg req body data).wp store (fun r disk => Durable disk r.1.snapshot r.1 ∧
        post r) (StopsRecovered inter) disk := by
    have led := lead m middle role term
    exact finishInstall_tracked (sound m middle) tracked led
      (fun progress => install m progress middle role term) (stale m middle role term)
      (refuse _ led).1
  unfold installDecoded
  simp only
  split
  · exact idle
  split
  · exact idle
  split
  · exact idle
  rename_i current
  split
  · rename_i older
    have down := follow older (Nat.le_of_not_lt current)
    have term : (n.steppedDown cfg req.term req.leaderID).currentTerm = req.term := by
      rw [steppedDown, followerAt_eq]
      split <;> exact max_eq_right (Nat.le_of_not_lt current)
    obtain ⟨role, snapshot, -⟩ := steppedDown_eq n cfg req.term req.leaderID
    refine wp_bind _ _ _
      (wp_mono _ _ (fun _ _ holds => holds) (fun _ stops => stops.recovered sound)
        (becomeFollowerLocked_tracked (backed_tracks n.snapshot) ⟨Or.inl rfl, durable⟩ start down
        fun disk saved => ?_))
    refine finish disk _ ?_ down role term
    rw [snapshot]
    exact saved.2
  · rename_i settled
    push Not at settled
    exact finish disk n durable start settled.2 (by omega)

theorem compact_tracked {snapshot : Snapshot} (wf : WellFormed n)
    (worth : n.worthPersisting snapshot = true) (saved : disk.snapshot.getD {} = snapshot)
    (hardState : disk.hardState.getD {} = n.hardState n.commitIndex) {crash : Disk → Prop}
    (before : crash disk)
    (after : ∀ disk, Durable disk snapshot (n.compacted snapshot) → crash disk) :
    (n.compact snapshot).wp store
      (fun m disk => m = n.compacted snapshot ∧ Durable disk snapshot m) crash disk := by
  have rest := (upholds_compact wf worth).wellFormed.contiguous
  have written : Durable (Disk.complete (.replaceEntries (n.compacted snapshot).log) disk) snapshot
      (n.compacted snapshot) := by
    refine ⟨hardState, saved, ?_⟩
    simp only [Disk.complete, snapshotBaseLocked, saved]
    exact records_image rest
  unfold compact
  rw [if_neg (by simp [worth])]
  simp only [perform_bind]
  exact wp_renamed (fun _ => rfl) ⟨rfl, written⟩ before (after _ written)

end Install

end Node

end GoRaftKV.Raft
