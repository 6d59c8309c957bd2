import GoRaftKV.Raft.Moves

namespace GoRaftKV.Raft

open Storage Library Program

namespace Node

variable {n : Node} {cfg : Config}

theorem becomeFollowerLocked_all {term : Nat} {leaderID : NodeId} {post : Node × Bool → Prop}
    (success : post (n.steppedDown cfg term leaderID, true))
    (failure : post ((n.followerAt term leaderID).failStorageLocked cfg, false)) :
    (n.becomeFollowerLocked cfg term leaderID).All post := by
  unfold steppedDown at success
  simp only [becomeFollowerLocked, persistHardStateLocked, saveHardStateLocked, perform_bind,
    all_call]
  refine ⟨?_, failure⟩
  simp only [if_true]
  split <;> rename_i role
  · rwa [if_pos role] at success
  · rwa [if_neg role] at success

theorem fail_moves : Moves cfg n (n.failStorageLocked cfg) := by
  rw [← failStorageLocked_followerAt]
  exact .single (.fail n n.currentTerm "")

theorem clearPending_moves : Moves cfg n { n with pendingSnapshot := none } :=
  .single (.progress n n.leaderID n.leaderNoopIndex n.nextIndex n.matchIndex none)

theorem setLeader_moves (leaderID : NodeId) : Moves cfg n { n with leaderID := leaderID } :=
  .single (.progress n leaderID n.leaderNoopIndex n.nextIndex n.matchIndex n.pendingSnapshot)

theorem castVote_moves (req : RequestVoteRequest) :
    (n.castVote req).All fun r => Moves cfg n r.1 := by
  unfold castVote
  split
  · rename_i grants
    simp only [persistHardStateLocked, saveHardStateLocked, perform_bind, all_call]
    exact ⟨.single (.vote n req.candidateID grants.1), .refl⟩
  · exact .refl

theorem handleRequestVote_moves (req : RequestVoteRequest) :
    (n.handleRequestVote cfg req).All fun r => Moves cfg n r.1 := by
  unfold handleRequestVote
  split
  · exact .refl
  split
  · exact .refl
  split
  · exact .refl
  split
  · refine All.bind (becomeFollowerLocked_all ?_ ?_)
    · exact (castVote_moves req).mono fun _ moves => .head (.follow n req.term "") moves
    · exact .single (.fail n req.term "")
  · exact castVote_moves req

theorem commitTo_moves {newCommit : Nat} (bound : newCommit ≤ n.lastIndexLocked) :
    (n.commitTo newCommit).All fun r => Moves cfg n r.1 := by
  unfold commitTo
  split
  · rename_i later
    simp only [persistHardStateLocked, saveHardStateLocked, perform_bind, all_call]
    exact ⟨.single (.commit n newCommit later.le bound), .refl⟩
  · exact .refl

theorem lastNewIndex_eq {prevLogIndex : Nat} {entries : List LogEntry}
    (ordered : Contiguous prevLogIndex (n.uncovered entries)) :
    n.lastNewIndex prevLogIndex entries = prevLogIndex + (n.uncovered entries).length := by
  induction entries generalizing prevLogIndex with
  | nil => rfl
  | cons head tail ih =>
      unfold lastNewIndex at ih ⊢
      rw [List.foldl_cons]
      by_cases covered : head.index ≤ n.snapshot.lastIncludedIndex
      · have skip : n.uncovered (head :: tail) = n.uncovered tail :=
          List.filter_cons_of_neg (by simpa using covered)
        rw [if_neg (by omega), skip]
        rw [skip] at ordered
        exact ih ordered
      · have take : n.uncovered (head :: tail) = head :: n.uncovered tail :=
          List.filter_cons_of_pos (by simpa using Nat.lt_of_not_le covered)
        rw [take, contiguous_cons] at ordered
        rw [if_pos (by omega), ordered.1, take, List.length_cons, ih ordered.2]
        omega

theorem mergeEntriesLocked_cases (contiguous : Contiguous n.snapshot.lastIncludedIndex n.log)
    {prevLogIndex : Nat} (bound : prevLogIndex ≤ n.lastIndexLocked) (entries : List LogEntry) :
    (∃ conflict, 0 < conflict ∧
      n.mergeEntriesLocked prevLogIndex entries = (n, { conflictIndex := conflict })) ∨
    (Contiguous prevLogIndex (n.uncovered entries) ∧
      Merged n prevLogIndex { lastNewIndex := prevLogIndex + (n.uncovered entries).length } entries
        (n.mergeEntriesLocked prevLogIndex entries)) := by
  simp only [mergeEntriesLocked]
  split
  · rename_i conflict
    exact Or.inl ⟨_, conflict, rfl⟩
  · rename_i none
    have valid : n.validateEntriesLocked prevLogIndex entries = 0 := by omega
    have ordered : Contiguous prevLogIndex (n.uncovered entries) := validateFrom_contiguous valid
    refine Or.inr ⟨ordered, ?_⟩
    rw [lastNewIndex_eq ordered]
    exact mergeLoop_merged contiguous bound ordered

/-- The entries a merge appends in bulk are all beyond the snapshot. -/
def SpliceSafe (n : Node) (entries : List LogEntry) : Prop :=
  ∀ entry ∈ n.spliced entries, n.snapshot.lastIncludedIndex < entry.index

theorem termAtLocked_congr {m : Node} (snapshot : m.snapshot = n.snapshot) (log : m.log = n.log)
    (index : Nat) : m.termAtLocked index = n.termAtLocked index := by
  simp only [termAtLocked, entryAtLocked, snapshot, log]

theorem spliced_congr {m : Node} (snapshot : m.snapshot = n.snapshot) (log : m.log = n.log)
    (entries : List LogEntry) : m.spliced entries = n.spliced entries := by
  induction entries with
  | nil => rfl
  | cons head tail ih =>
      have last : m.lastIndexLocked = n.lastIndexLocked := by
        simp only [lastIndexLocked, snapshot, log]
      rw [spliced, spliced, ih, last, termAtLocked_congr snapshot log, snapshot]

theorem SpliceSafe.congr {m : Node} {entries : List LogEntry} (safe : n.SpliceSafe entries)
    (snapshot : m.snapshot = n.snapshot) (log : m.log = n.log) : m.SpliceSafe entries := by
  intro entry member
  rw [spliced_congr snapshot log] at member
  rw [snapshot]
  exact safe entry member

theorem spliceSafe_of_contiguous (start : Nat) {entries : List LogEntry}
    (ordered : Contiguous start entries) : n.SpliceSafe entries := by
  induction entries generalizing start with
  | nil =>
      intro entry member
      cases member
  | cons head tail ih =>
      obtain ⟨first, rest⟩ := contiguous_cons.mp ordered
      intro entry member
      simp only [spliced] at member
      split at member
      · exact ih (start + 1) rest entry member
      · rename_i fresh
        split at member
        · split at member
          · exact ih (start + 1) rest entry member
          · have later := (ordered.mem member).1
            omega
        · cases member

/-- A merge that goes through: some of the log stays and `rest` follows it. -/
structure Splice (n : Node) (lastNew : Nat) (m : Node) (result : MergeEntriesResult) (keep : Nat)
    (rest : List LogEntry) : Prop where
  memory : m = { n with log := n.log.take keep ++ rest }
  bound : keep ≤ n.log.length
  safe : n.commitIndex ≤ n.snapshot.lastIncludedIndex + keep
  next : Contiguous (n.snapshot.lastIncludedIndex + keep) rest
  newest : result.lastNewIndex = lastNew
  reaches : lastNew ≤ n.snapshot.lastIncludedIndex + keep + rest.length
  replaced : result.replaced = true → result.changed = true
  appended : result.replaced = false → keep = n.log.length ∧ result.appended = rest
  unchanged : result.changed = false → rest = []

theorem Merged.splice (wf : WellFormed n) {prevLogIndex lastNew : Nat} {entries : List LogEntry}
    (bound : prevLogIndex ≤ n.lastIndexLocked)
    (ordered : Contiguous prevLogIndex (n.uncovered entries)) (safe : n.SpliceSafe entries)
    (reach : lastNew = prevLogIndex + (n.uncovered entries).length)
    {outcome : Node × MergeEntriesResult}
    (merged : Merged n prevLogIndex { lastNewIndex := lastNew } entries outcome) :
    (outcome.1 = n ∧ 0 < outcome.2.conflictIndex) ∨
      (outcome.2.conflictIndex = 0 ∧ ∃ keep rest,
        Splice n lastNew outcome.1 outcome.2 keep rest) := by
  have last := lastIndexLocked_eq wf.contiguous
  have committed := wf.committed
  cases merged with
  | extended more added matching =>
      refine Or.inr ⟨rfl, n.log.length, more, ?_⟩
      have rest := ordered.drop (n.lastIndexLocked - prevLogIndex)
      rw [← added, Nat.add_sub_cancel' bound, last] at rest
      exact
        { memory := by rw [List.take_length]
          bound := le_rfl
          safe := by omega
          next := rest
          newest := rfl
          reaches := by
            have length := congrArg List.length added
            rw [List.length_drop] at length
            omega
          replaced := by simp
          appended := fun _ => ⟨rfl, rfl⟩
          unchanged := by simp }
  | rejected entry after inside conflict committed =>
      exact Or.inl ⟨rfl, Nat.zero_lt_of_lt after⟩
  | replaced entry front back split suffix after inside matching conflict uncommitted =>
      refine Or.inr ⟨rfl, entry.index - n.snapshot.lastIncludedIndex - 1, entry :: back, ?_⟩
      have beyond : n.uncovered (entry :: back) = entry :: back := by
        refine List.filter_eq_self.mpr fun other member => ?_
        exact decide_eq_true (safe other (by rw [suffix]; exact member))
      have parts : n.uncovered entries = n.uncovered front ++ entry :: back := by
        rw [split, uncovered, List.filter_append, ← uncovered, ← uncovered, beyond]
      rw [parts, contiguous_append] at ordered
      have first := (contiguous_cons.mp ordered.2).1
      have fresh := safe entry (by rw [suffix]; exact List.mem_cons_self)
      have position : n.snapshot.lastIncludedIndex +
          (entry.index - n.snapshot.lastIncludedIndex - 1) = prevLogIndex +
          (n.uncovered front).length := by omega
      exact
        { memory := rfl
          bound := by omega
          safe := by omega
          next := by
            rw [position]
            exact ordered.2
          newest := rfl
          reaches := by
            rw [position, reach, parts, List.length_append]
            omega
          replaced := fun _ => rfl
          appended := by simp
          unchanged := by simp }

theorem Merged.conflict {done : Nat} {start result : MergeEntriesResult} {entries : List LogEntry}
    {m : Node} (merged : Merged n done start entries (m, result)) (fresh : start.replaced = false)
    (replaced : result.replaced = true) : n.spliced entries ≠ [] := by
  generalize same : (m, result) = outcome at merged
  cases merged with
  | extended more added matching =>
      cases same
      rw [fresh] at replaced
      cases replaced
  | rejected entry after inside conflict committed =>
      cases same
      cases replaced
  | replaced entry front back split suffix after inside matching conflict uncommitted =>
      rw [suffix]
      exact List.cons_ne_nil _ _

theorem Splice.moves {lastNew keep : Nat} {m : Node} {result : MergeEntriesResult}
    {rest : List LogEntry} (splice : Splice n lastNew m result keep rest)
    (follows : n.role = .follower) :
    Moves cfg n m := by
  rw [splice.memory]
  exact .single (.merge n keep rest follows splice.bound splice.safe splice.next)

theorem Splice.contiguous {lastNew keep : Nat} {m : Node} {result : MergeEntriesResult}
    {rest : List LogEntry} (splice : Splice n lastNew m result keep rest)
    (contiguous : Contiguous n.snapshot.lastIncludedIndex n.log) :
    Contiguous n.snapshot.lastIncludedIndex m.log := by
  rw [splice.memory, contiguous_append, List.length_take, min_eq_left splice.bound]
  exact ⟨contiguous.take keep, splice.next⟩

theorem Splice.last {lastNew keep : Nat} {m : Node} {result : MergeEntriesResult}
    {rest : List LogEntry} (splice : Splice n lastNew m result keep rest) (wf : WellFormed n) :
    m.lastIndexLocked = n.snapshot.lastIncludedIndex + keep + rest.length := by
  have whole := splice.contiguous wf.contiguous
  rw [splice.memory] at whole ⊢
  rw [lastIndexLocked_eq (n := { n with log := n.log.take keep ++ rest }) whole]
  simp only [List.length_append, List.length_take, min_eq_left splice.bound]
  omega

theorem spliceEntries_moves (wf : WellFormed n) (follows : n.role = .follower)
    {req : AppendEntriesRequest} (bound : req.prevLogIndex ≤ n.lastIndexLocked)
    (safe : n.SpliceSafe req.entries) :
    (n.spliceEntries cfg req).All fun r => Moves cfg n r.1 := by
  unfold spliceEntries
  rcases mergeEntriesLocked_cases wf.contiguous bound req.entries with
    ⟨conflict, positive, invalid⟩ | ⟨ordered, merged⟩
  · simp only [invalid, if_pos positive, pure_eq, all_ret]
    exact .refl
  · generalize n.mergeEntriesLocked req.prevLogIndex req.entries = outcome at merged ⊢
    rcases merged.splice wf bound ordered safe rfl with
      ⟨same, conflict⟩ | ⟨none, keep, rest, splice⟩
    · simp only [if_pos conflict, pure_eq, all_ret, same]
      exact .refl
    · simp only [none, Nat.lt_irrefl, if_false]
      have moved : Moves cfg n outcome.1 := splice.moves follows
      have reach : min req.leaderCommit outcome.2.lastNewIndex ≤ outcome.1.lastIndexLocked := by
        have last := splice.last wf
        have reaches := splice.reaches
        rw [splice.newest]
        omega
      have commits : (outcome.1.commitTo (min req.leaderCommit outcome.2.lastNewIndex)).All
          fun r => Moves cfg n r.1 :=
        (commitTo_moves reach).mono fun _ moves => moved.trans moves
      split
      · simp only [perform_bind, all_call, if_true]
        refine ⟨commits, ?_⟩
        have back : { outcome.1 with log := n.log } = n := by rw [splice.memory]
        simp only [Bool.false_eq_true, if_false, pure_eq, all_ret, back]
        exact fail_moves
      · exact commits

theorem matchEntries_moves (wf : WellFormed n) (follows : n.role = .follower)
    {req : AppendEntriesRequest} (safe : n.SpliceSafe req.entries) :
    (n.matchEntries cfg req).All fun r => Moves cfg n r.1 := by
  have led : Moves cfg n { n with leaderID := req.leaderID } := setLeader_moves req.leaderID
  unfold matchEntries
  simp only
  split
  · exact led
  rename_i after
  split
  · exact led
  rename_i found
  have bound := termAtLocked_bound (n := { n with leaderID := req.leaderID }) wf.contiguous
    (Nat.le_of_not_lt after) (not_not.mp found)
  refine (spliceEntries_moves (led.upholds wf).wellFormed follows bound ?_).mono fun _ moves =>
    led.trans moves
  exact safe.congr rfl rfl

theorem steppedDown_eq (n : Node) (cfg : Config) (term : Nat) (leaderID : NodeId) :
    (n.steppedDown cfg term leaderID).role = .follower ∧
    (n.steppedDown cfg term leaderID).snapshot = n.snapshot ∧
    (n.steppedDown cfg term leaderID).log = n.log := by
  rw [steppedDown, followerAt_eq]
  split <;> exact ⟨rfl, rfl, rfl⟩

theorem steppedDown_commitIndex (n : Node) (cfg : Config) (term : Nat) (leaderID : NodeId) :
    (n.steppedDown cfg term leaderID).commitIndex = n.commitIndex := by
  rw [steppedDown, followerAt_eq]
  split <;> rfl

theorem handleAppendEntries_moves (wf : WellFormed n) {req : AppendEntriesRequest}
    (safe : n.SpliceSafe req.entries) :
    (n.handleAppendEntries cfg req).All fun r => Moves cfg n r.1 := by
  unfold handleAppendEntries
  simp only
  split
  · exact .refl
  split
  · exact .refl
  split
  · exact .refl
  split
  · refine All.bind (becomeFollowerLocked_all ?_ ?_)
    · have move : Move cfg n (n.steppedDown cfg req.term req.leaderID) :=
        .follow n req.term req.leaderID
      obtain ⟨follows, snapshot, log⟩ := steppedDown_eq n cfg req.term req.leaderID
      refine (matchEntries_moves (move.upholds wf).wellFormed follows
        (safe.congr snapshot log)).mono ?_
      exact fun _ moves => .head move moves
    · exact .single (.fail n req.term req.leaderID)
  · rename_i current
    push Not at current
    exact matchEntries_moves wf current.2 safe

theorem commitTarget_some {start index : Nat} (found : n.commitTarget cfg start = some index) :
    n.commitIndex < index ∧ index ≤ start ∧ n.termAtLocked index = some n.currentTerm ∧
      cfg.quorum ≤ n.replicaCount cfg index := by
  induction start with
  | zero => cases found
  | succ start ih =>
      simp only [commitTarget] at found
      split at found
      · cases found
      · rename_i uncommitted
        split at found
        · rename_i counted
          simp only [Option.some.injEq] at found
          subst found
          exact ⟨Nat.lt_of_not_le uncommitted, le_rfl, counted⟩
        · obtain ⟨later, bound, counted⟩ := ih found
          exact ⟨later, by omega, counted⟩

theorem advanceCommitLocked_moves : (n.advanceCommitLocked cfg).All fun m => Moves cfg n m := by
  unfold advanceCommitLocked
  cases target : n.commitTarget cfg n.lastIndexLocked with
  | none => exact .refl
  | some index =>
      obtain ⟨later, bound, -⟩ := commitTarget_some target
      simp only [persistHardStateLocked, saveHardStateLocked, perform_bind, all_call]
      exact ⟨.single (.commit n index later.le bound), fail_moves⟩

theorem proposeAppend_moves (command : Command) (chan : ChanId) :
    (n.proposeAppend cfg command chan).All fun r =>
      (Moves cfg n r.1 ∧ ∃ err, r.2 = .error err) ∨
      (n.role = .leader ∧ r.2 = .ok (n.lastIndexLocked + 1) ∧
        Moves cfg (n.accepted cfg
          { index := n.lastIndexLocked + 1, term := n.currentTerm, command := command } chan)
            r.1) := by
  unfold proposeAppend
  split
  · exact Or.inl ⟨.refl, _, rfl⟩
  split
  · exact Or.inl ⟨.refl, _, rfl⟩
  split
  · exact Or.inl ⟨.refl, _, rfl⟩
  rename_i leads
  simp only [perform_bind, all_call]
  refine ⟨?_, Or.inl ⟨fail_moves, _, rfl⟩⟩
  refine All.bind (advanceCommitLocked_moves.mono fun m moves => ?_)
  exact Or.inr ⟨not_not.mp leads, rfl, moves⟩

theorem startElection_moves : (n.startElection cfg).All fun r => Moves cfg n r.1 := by
  unfold startElection
  split
  · exact .refl
  · rename_i eligible
    simp only [persistHardStateLocked, saveHardStateLocked, perform_bind, all_call]
    refine ⟨.single (.stand n fun leads => eligible (Or.inr (Or.inl leads))), ?_⟩
    exact .single (.progress n n.leaderID 0 n.nextIndex n.matchIndex n.pendingSnapshot)

theorem becomeLeader_moves (term : Nat) : (n.becomeLeader cfg term).All fun m => Moves cfg n m := by
  unfold becomeLeader
  split
  · exact .refl
  · rename_i eligible
    push Not at eligible
    have lead : Move cfg n (n.leading cfg) := .lead n eligible.2.1
    simp only [perform_bind, all_call]
    refine ⟨?_, .head lead fail_moves⟩
    refine advanceCommitLocked_moves.mono fun m moves => ?_
    exact .head lead (.head (.noop (n.leading cfg) _ rfl rfl) moves)

theorem stepDown_moves (term : Nat) (leaderID : NodeId) :
    (n.becomeFollowerLocked cfg term leaderID).All fun r => Moves cfg n r.1 :=
  becomeFollowerLocked_all (.single (.follow n term leaderID)) (.single (.fail n term leaderID))

theorem acknowledge_moves (peer : NodeId) (index : Nat) : Moves cfg n (n.acknowledge peer index) :=
  .single (.progress n n.leaderID n.leaderNoopIndex _ _ n.pendingSnapshot)

theorem setNextIndex_moves (nextIndex : NodeId → Nat) :
    Moves cfg n { n with nextIndex := nextIndex } :=
  .single (.progress n n.leaderID n.leaderNoopIndex nextIndex n.matchIndex n.pendingSnapshot)

/-- What an attempt to replicate can send. -/
def Dispatch.From (n : Node) (cfg : Config) : Dispatch → Prop
  | .quit => True
  | .retry => True
  | .append req =>
      n.role = .leader ∧ n.snapshot.lastIncludedIndex ≤ req.prevLogIndex ∧
        n.termAtLocked req.prevLogIndex = some req.prevLogTerm ∧
        req = { term := n.currentTerm, leaderID := cfg.id, prevLogIndex := req.prevLogIndex
                prevLogTerm := req.prevLogTerm
                entries := n.entriesFromLocked (req.prevLogIndex + 1)
                leaderCommit := n.commitIndex }
  | .snapshot term sent =>
      n.role = .leader ∧ term = n.currentTerm ∧ sent = n.snapshot ∧ 0 < sent.lastIncludedIndex

theorem replicateToPeer_eq (n : Node) (cfg : Config) (peer : NodeId) :
    (∃ nextIndex, (n.replicateToPeer cfg peer).1 = { n with nextIndex := nextIndex }) ∧
      (n.replicateToPeer cfg peer).2.From n cfg := by
  unfold replicateToPeer
  split
  · exact ⟨⟨_, rfl⟩, trivial⟩
  · rename_i eligible
    push Not at eligible
    have positive : 0 < if n.nextIndex peer = 0 then n.lastIndexLocked + 1
        else n.nextIndex peer := by
      split <;> omega
    simp only
    generalize (if n.nextIndex peer = 0 then n.lastIndexLocked + 1 else n.nextIndex peer) = next
      at positive ⊢
    obtain ⟨previous, rfl⟩ : ∃ previous, next = previous + 1 := ⟨next - 1, by omega⟩
    split
    · exact ⟨⟨_, rfl⟩, eligible.2, rfl, rfl, by omega⟩
    · rename_i after
      cases found : n.termAtLocked previous with
      | none =>
          have missing : termAtLocked { n with
              nextIndex := Function.update n.nextIndex peer (previous + 1) } previous =
                none := found
          simp only [Nat.add_sub_cancel, missing]
          exact ⟨⟨_, rfl⟩, trivial⟩
      | some prevTerm =>
          have present : termAtLocked { n with
              nextIndex := Function.update n.nextIndex peer (previous + 1) } previous =
              some prevTerm := found
          simp only [Nat.add_sub_cancel, present]
          exact ⟨⟨_, rfl⟩, eligible.2, by simp only; omega, found, rfl⟩

theorem replicateToPeer_moves (peer : NodeId) : Moves cfg n (n.replicateToPeer cfg peer).1 := by
  obtain ⟨⟨nextIndex, same⟩, -⟩ := replicateToPeer_eq n cfg peer
  rw [same]
  exact setNextIndex_moves nextIndex

theorem replicateReply_moves (peer : NodeId) (req : AppendEntriesRequest)
    (resp : AppendEntriesResponse) :
    (n.replicateReply cfg peer req resp).All fun r => Moves cfg n r.1 := by
  unfold replicateReply
  split
  · exact All.bind ((stepDown_moves resp.term "").mono fun _ moves => moves)
  split
  · exact .refl
  split
  · refine All.bind (advanceCommitLocked_moves.mono fun m moves => ?_)
    exact (acknowledge_moves peer _).trans moves
  split
  · exact setNextIndex_moves _
  · exact .refl

theorem sendSnapshotReply_moves (term : Nat) (resp : InstallSnapshotResponse) :
    (n.sendSnapshotReply cfg term resp).All fun r => Moves cfg n r.1 := by
  unfold sendSnapshotReply
  split
  · exact All.bind ((stepDown_moves resp.term "").mono fun _ moves => moves)
  · exact .refl

theorem snapshotSent_moves (peer : NodeId) (term snapIdx : Nat) :
    Moves cfg n (n.snapshotSent peer term snapIdx) := by
  unfold snapshotSent
  split
  · exact acknowledge_moves peer snapIdx
  · exact .refl

theorem setPending_moves (leaderID : NodeId) (pending : Option SnapshotProgress) :
    Moves cfg n { n with leaderID := leaderID, pendingSnapshot := pending } :=
  .single (.progress n leaderID n.leaderNoopIndex n.nextIndex n.matchIndex pending)

theorem collectChunk_eq (n : Node) (req : InstallSnapshotRequest) :
    ∃ pending, (n.collectChunk req).1 =
      { n with leaderID := req.leaderID, pendingSnapshot := pending } := by
  have receive (m : Node) (progress : SnapshotProgress) :
      ∃ pending, (m.receiveChunk progress req).1 = { m with pendingSnapshot := pending } := by
    unfold receiveChunk
    split
    · exact ⟨_, rfl⟩
    · simp only
      split <;> exact ⟨_, rfl⟩
  unfold collectChunk
  simp only
  split
  · exact ⟨_, rfl⟩
  · split
    · split
      · exact receive _ _
      · split
        · exact ⟨_, rfl⟩
        · exact receive _ _
    · split
      · exact ⟨_, rfl⟩
      · exact receive _ _

theorem collectChunk_moves (req : InstallSnapshotRequest) : Moves cfg n (n.collectChunk req).1 := by
  obtain ⟨pending, same⟩ := collectChunk_eq n req
  rw [same]
  exact setPending_moves req.leaderID pending

theorem handleInstallSnapshot_moves (req : InstallSnapshotRequest) :
    (n.handleInstallSnapshot cfg req).All fun r => Moves cfg n r.1 := by
  unfold handleInstallSnapshot
  split
  · exact .refl
  split
  · exact .refl
  split
  · exact .refl
  split
  · refine All.bind (becomeFollowerLocked_all ?_ ?_)
    · exact .head (.follow n req.term req.leaderID) (collectChunk_moves req)
    · exact .head (.fail n req.term req.leaderID) clearPending_moves
  · exact collectChunk_moves req

/-- How the last section of an installation at `index` can end. -/
inductive InstallEnd (cfg : Config) (index : Nat) (n : Node) : Node → Prop
  | unchanged (m : Node) (moves : Moves cfg n m) : InstallEnd cfg index n m
  | installed (m : Node) (snapshot : Snapshot) (moves : Moves cfg n m)
      (follows : m.role = .follower) (commit : m.commitIndex = n.commitIndex)
      (newer : m.commitIndex < snapshot.lastIncludedIndex)
      (same : snapshot.lastIncludedIndex = index) :
      InstallEnd cfg index n
        (m.installed snapshot (m.logAfterSnapshotLocked snapshot) snapshot.lastIncludedIndex)

theorem InstallEnd.after {m k : Node} {index : Nat} (moves : Moves cfg n m)
    (kept : m.commitIndex = n.commitIndex) (ending : InstallEnd cfg index m k) :
    InstallEnd cfg index n k := by
  cases ending with
  | unchanged k rest => exact .unchanged k (moves.trans rest)
  | installed k snapshot rest follows commit newer same =>
      exact .installed k snapshot (moves.trans rest) follows (commit.trans kept) newer same

theorem persistInstall_ends (follows : n.role = .follower) {snapshot : Snapshot}
    (newer : n.commitIndex < snapshot.lastIncludedIndex) (length : Nat) :
    (n.persistInstall cfg snapshot length).All fun r =>
      InstallEnd cfg snapshot.lastIncludedIndex n r.1 := by
  have failed : InstallEnd cfg snapshot.lastIncludedIndex n
      (failStorageLocked { n with pendingSnapshot := none } cfg) :=
    .unchanged _ (clearPending_moves.trans fail_moves)
  unfold persistInstall
  simp only [saveHardStateLocked, perform_bind, all_call, if_true]
  refine ⟨⟨⟨?_, failed⟩, failed⟩, failed⟩
  rw [max_eq_right newer.le]
  exact .installed n snapshot .refl follows rfl newer rfl

theorem finishInstall_ends (follows : n.role = .follower) (req : InstallSnapshotRequest)
    (body : Bytes) (data : Option KVMap) :
    (n.finishInstall cfg req body data).All fun r =>
      InstallEnd cfg req.lastIncludedIndex n r.1 := by
  unfold finishInstall
  simp only
  split
  · exact .unchanged _ (setPending_moves req.leaderID none)
  · rename_i newer
    have led : Moves cfg n { n with leaderID := req.leaderID } := setLeader_moves req.leaderID
    split
    · exact .unchanged _ led
    · split
      · refine (persistInstall_ends (n := { n with leaderID := req.leaderID }) follows ?_ _).mono
          fun _ ending => ending.after led rfl
        exact Nat.lt_of_not_le newer
      · exact .unchanged _ led

theorem installDecoded_ends (req : InstallSnapshotRequest) (body : Bytes) (data : Option KVMap) :
    (n.installDecoded cfg req body data).All fun r =>
      InstallEnd cfg req.lastIncludedIndex n r.1 := by
  unfold installDecoded
  simp only
  split
  · exact .unchanged _ clearPending_moves
  split
  · exact .unchanged _ clearPending_moves
  split
  · exact .unchanged _ clearPending_moves
  split
  · refine All.bind (becomeFollowerLocked_all ?_ ?_)
    · refine (finishInstall_ends ?_ req body data).mono fun _ ending => ?_
      · exact (steppedDown_eq n cfg req.term req.leaderID).1
      · exact ending.after (.single (.follow n req.term req.leaderID))
          (steppedDown_commitIndex _ _ _ _)
    · exact .unchanged _ (.head (.fail n req.term req.leaderID) clearPending_moves)
  · rename_i current
    push Not at current
    exact finishInstall_ends current.2 req body data

theorem applyNext_eq (wf : WellFormed n) : n.applyNext =
    (n, if n.commitIndex ≤ n.lastApplied then none else n.entryAtLocked (n.lastApplied + 1)) := by
  have compacted := wf.compacted
  unfold applyNext
  split
  · rfl
  · rw [if_neg (by omega)]

theorem applyDone_eq (entry : LogEntry) (result : ApplyResult) :
    (n.applyDone cfg entry result).1 =
      if n.stillApplies entry = true then
        finishWaitersLocked { n with lastApplied := entry.index } entry.index result
      else n := by
  unfold applyDone
  cases still : n.stillApplies entry with
  | false => rfl
  | true =>
      simp only [Bool.true_eq_false, if_false, if_true]
      split <;> rfl

theorem compact_ends (snapshot : Snapshot) :
    (n.compact snapshot).All fun m =>
      m = n ∨ (n.worthPersisting snapshot = true ∧ m = n.compacted snapshot) := by
  unfold compact
  split
  · exact Or.inl rfl
  · rename_i worth
    simp only [perform_bind, all_call]
    exact ⟨Or.inr ⟨by simpa using worth, rfl⟩, Or.inl rfl⟩

end Node

end GoRaftKV.Raft
