import GoRaftKV.Raft.Accepting
import GoRaftKV.Raft.HostRuns

/-! A node and the same node after a compaction: with store calls that succeed, every section does
the same to both, since nothing it reads lies below the newer snapshot. -/

namespace GoRaftKV.Raft

open Storage Library Program

namespace Node

/-- The boundary of `s` is one of the node's own applied entries. -/
structure Bounds (n : Node) (s : Snapshot) : Prop where
  later : n.snapshot.lastIncludedIndex ≤ s.lastIncludedIndex
  applied : s.lastIncludedIndex ≤ n.lastApplied
  own : s.lastIncludedIndex = n.snapshot.lastIncludedIndex →
    s.lastIncludedTerm = n.snapshot.lastIncludedTerm
  inside : n.snapshot.lastIncludedIndex < s.lastIncludedIndex →
    n.termAtLocked s.lastIncludedIndex = some s.lastIncludedTerm

/-- `m` is `n` compacted up to some snapshot of its own history. -/
structure Trims (n m : Node) : Prop where
  wf : WellFormed n
  compacted : ∃ s, n.Bounds s ∧ m = n.compacted s

variable {cfg : Config} {n m : Node} {s : Snapshot}

theorem Bounds.upheld (bounds : n.Bounds s) (wf : WellFormed n) (upholds : n.Upholds m)
    (same : m.snapshot = n.snapshot) : m.Bounds s where
  later := same ▸ bounds.later
  applied := bounds.applied.trans upholds.applied
  own := same ▸ bounds.own
  inside := by
    intro later
    have applied := wf.applied
    have bound := bounds.applied
    rw [termAtLocked_of_gt later, upholds.kept _ later (by omega), ← termAtLocked_of_gt (same ▸
      later)]
    exact bounds.inside (same ▸ later)

theorem compacted_compacted {newer : Snapshot}
    (later : s.lastIncludedIndex ≤ newer.lastIncludedIndex) :
    (n.compacted s).compacted newer = n.compacted newer := by
  have both (entry : LogEntry) : (decide (newer.lastIncludedIndex < entry.index) &&
      decide (s.lastIncludedIndex < entry.index)) =
        decide (newer.lastIncludedIndex < entry.index) := by
    rw [← Bool.decide_and, decide_eq_decide]
    omega
  simp only [compacted, List.filter_filter, both]

section Reads

variable (wf : WellFormed n) (bounds : n.Bounds s)

include wf bounds

theorem compacted_log : (n.compacted s).log =
    n.log.drop (s.lastIncludedIndex - n.snapshot.lastIncludedIndex) :=
  wf.contiguous.filter_lt bounds.later

theorem compacted_contiguous : Contiguous s.lastIncludedIndex (n.compacted s).log := by
  have rest := wf.contiguous.drop (s.lastIncludedIndex - n.snapshot.lastIncludedIndex)
  rw [Nat.add_sub_cancel' bounds.later] at rest
  rw [compacted_log wf bounds]
  exact rest

theorem lastIndexLocked_compacted : (n.compacted s).lastIndexLocked = n.lastIndexLocked := by
  have last : (n.compacted s).lastIndexLocked = _ := (compacted_contiguous wf bounds).lastIndex
  have whole := lastIndexLocked_eq wf.contiguous
  have later := bounds.later
  have bound := bounds.applied
  have applied := wf.applied
  have committed := wf.committed
  rw [last, compacted_log wf bounds, List.length_drop]
  omega

theorem entryAtLocked_trimmed {index : Nat} (after : s.lastIncludedIndex < index) :
    (n.compacted s).entryAtLocked index = n.entryAtLocked index := by
  have below := bounds.later
  have position : s.lastIncludedIndex - n.snapshot.lastIncludedIndex +
      (index - s.lastIncludedIndex - 1) = index - n.snapshot.lastIncludedIndex - 1 := by omega
  have trimmed : (n.compacted s).entryAtLocked index =
      (n.compacted s).log[index - s.lastIncludedIndex - 1]? :=
    entryAtLocked_of_gt (compacted_contiguous wf bounds) after
  rw [trimmed, entryAtLocked_of_gt wf.contiguous (by omega), compacted_log wf bounds,
    List.getElem?_drop, position]

theorem termAtLocked_trimmed {index : Nat} (after : s.lastIncludedIndex ≤ index) :
    (n.compacted s).termAtLocked index = n.termAtLocked index := by
  rcases after.eq_or_lt with same | later
  · subst same
    rcases bounds.later.eq_or_lt with own | inside
    · simp [termAtLocked, compacted, own, bounds.own own.symm]
    · rw [bounds.inside inside]
      have positive : s.lastIncludedIndex ≠ 0 := by omega
      simp [termAtLocked, compacted, positive]
  · have trimmed : (n.compacted s).termAtLocked index = ((n.compacted s).entryAtLocked index).map
        LogEntry.term :=
      termAtLocked_of_gt later
    rw [trimmed, entryAtLocked_trimmed wf bounds later,
      termAtLocked_of_gt (bounds.later.trans_lt later)]

theorem lastTermLocked_compacted : (n.compacted s).lastTermLocked = n.lastTermLocked := by
  have later := bounds.later
  have bound := bounds.applied
  have applied := wf.applied
  have committed := wf.committed
  have whole := lastIndexLocked_eq wf.contiguous
  simp only [lastTermLocked, lastTerm, compacted_log wf bounds, List.getLast?_drop]
  by_cases short : n.log.length ≤ s.lastIncludedIndex - n.snapshot.lastIncludedIndex
  · rw [if_pos short]
    cases last : n.log.getLast? with
    | none =>
        rw [List.getLast?_eq_none_iff.mp last, List.length_nil] at whole
        exact bounds.own (by omega)
    | some entry =>
        have nonempty : n.log.length ≠ 0 := by
          intro empty
          rw [List.eq_nil_of_length_eq_zero empty] at last
          cases last
        have inside := bounds.inside (by omega)
        rw [termAtLocked_of_gt (by omega), entryAtLocked_of_gt wf.contiguous (by omega)] at inside
        rw [List.getLast?_eq_getElem?] at last
        have position : s.lastIncludedIndex - n.snapshot.lastIncludedIndex - 1 =
            n.log.length - 1 := by
          omega
        rw [position, last] at inside
        exact (Option.some.inj inside).symm
  · rw [if_neg short]
    cases last : n.log.getLast? with
    | none =>
        rw [List.getLast?_eq_none_iff.mp last] at short
        exact absurd (Nat.zero_le _) short
    | some entry => rfl

end Reads

theorem Bounds.trims (bounds : n.Bounds s) (wf : WellFormed n) {after trimmed : Node}
    (upholds : n.Upholds after) (same : after.snapshot = n.snapshot)
    (commutes : trimmed = after.compacted s) :
    after.Trims trimmed :=
  ⟨upholds.wellFormed, s, bounds.upheld wf upholds same, commutes⟩

theorem Bounds.moves (bounds : n.Bounds s) (wf : WellFormed n) {after trimmed : Node}
    (moves : Moves cfg n after) (commutes : trimmed = after.compacted s) : after.Trims trimmed :=
  bounds.trims wf (moves.upholds wf) moves.snapshot commutes

theorem followerAt_compacted (n : Node) (s : Snapshot) (term : Nat) (leaderID : NodeId) :
    (n.compacted s).followerAt term leaderID = (n.followerAt term leaderID).compacted s := by
  rw [followerAt_eq, followerAt_eq]
  rfl

theorem steppedDown_compacted (term : Nat) (leaderID : NodeId) :
    (n.compacted s).steppedDown cfg term leaderID =
      (n.steppedDown cfg term leaderID).compacted s := by
  unfold steppedDown
  rw [followerAt_compacted]
  have role : (n.compacted s).role = n.role := rfl
  rw [role]
  split <;> rfl

theorem steppedDown_bounds (cfg : Config) (bounds : n.Bounds s) (wf : WellFormed n) (term : Nat)
    (leaderID : NodeId) :
    WellFormed (n.steppedDown cfg term leaderID) ∧ (n.steppedDown cfg term leaderID).Bounds s := by
  have moves : Move cfg n (n.steppedDown cfg term leaderID) := .follow n term leaderID
  have upholds := moves.upholds wf
  exact ⟨upholds.wellFormed, bounds.upheld wf upholds moves.snapshot⟩

section Votes

variable (wf : WellFormed n) (bounds : n.Bounds s)

include wf bounds

theorem upToDate_compacted (req : RequestVoteRequest) :
    (n.compacted s).upToDate req = n.upToDate req := by
  unfold upToDate
  rw [lastTermLocked_compacted wf bounds, lastIndexLocked_compacted wf bounds]

theorem castVote_compacted (req : RequestVoteRequest) :
    ((n.compacted s).castVote req).value =
      ((n.castVote req).value.1.compacted s, (n.castVote req).value.2) := by
  unfold castVote
  rw [upToDate_compacted wf bounds]
  simp only [persistHardStateLocked, saveHardStateLocked, perform_bind]
  have vote : (n.compacted s).votedFor = n.votedFor := rfl
  rw [vote]
  split <;> rfl

theorem handleRequestVote_compacted (req : RequestVoteRequest) :
    ((n.compacted s).handleRequestVote cfg req).value =
      ((n.handleRequestVote cfg req).value.1.compacted s,
        (n.handleRequestVote cfg req).value.2) := by
  have stopped : (n.compacted s).stopped = n.stopped := rfl
  have fatal : (n.compacted s).storageFatal = n.storageFatal := rfl
  have term : (n.compacted s).currentTerm = n.currentTerm := rfl
  unfold handleRequestVote
  rw [stopped, fatal, term]
  split
  · rfl
  split
  · rfl
  split
  · rfl
  split
  · simp only [value_bind, becomeFollowerLocked_value, if_true, steppedDown_compacted]
    rcases steppedDown_bounds cfg bounds wf req.term "" with ⟨down, kept⟩
    exact castVote_compacted down kept req
  · exact castVote_compacted wf bounds req

end Votes

section Appends

variable {entries : List LogEntry}

theorem validateFrom_newer {older newer prevLogIndex previous : Nat} (later : older ≤ newer)
    (after : ∀ entry ∈ entries, newer < entry.index) :
    validateFrom newer prevLogIndex previous entries = validateFrom older prevLogIndex previous
      entries := by
  -- Beyond both snapshots the validation of a request does not look at them.
  induction entries generalizing previous with
  | nil => rfl
  | cons entry entries ih =>
      have first := after entry List.mem_cons_self
      have skip : ¬ entry.index ≤ newer := by omega
      have keep : ¬ entry.index ≤ older := by omega
      simp only [validateFrom, if_neg skip, if_neg keep]
      rw [ih fun other member => after other (List.mem_cons_of_mem _ member)]

theorem lastNewIndex_compacted (later : n.snapshot.lastIncludedIndex ≤ s.lastIncludedIndex)
    (after : ∀ entry ∈ entries, s.lastIncludedIndex < entry.index) (prevLogIndex : Nat) :
    (n.compacted s).lastNewIndex prevLogIndex entries = n.lastNewIndex prevLogIndex entries := by
  unfold lastNewIndex
  induction entries generalizing prevLogIndex with
  | nil => rfl
  | cons entry entries ih =>
      have first := after entry List.mem_cons_self
      have newer : (n.compacted s).snapshot.lastIncludedIndex < entry.index := first
      have older : n.snapshot.lastIncludedIndex < entry.index := by omega
      simp only [List.foldl_cons, newer, older, true_and]
      exact ih (fun other member => after other (List.mem_cons_of_mem _ member)) _

theorem filter_newer {index : Nat} (after : ∀ entry ∈ entries, index < entry.index) :
    (entries.filter fun entry => index < entry.index) = entries :=
  List.filter_eq_self.mpr fun entry member => decide_eq_true (after entry member)

theorem truncated_compacted (wf : WellFormed n) (bounds : n.Bounds s) {index : Nat}
    (beyond : s.lastIncludedIndex < index)
    (after : ∀ entry ∈ entries, s.lastIncludedIndex < entry.index) :
    { (n.compacted s).truncateFromLocked index with
      log := ((n.compacted s).truncateFromLocked index).log ++ entries } =
    compacted { n.truncateFromLocked index with log := (n.truncateFromLocked index).log ++ entries }
      s := by
  have later := bounds.later
  have older : ¬ index ≤ n.snapshot.lastIncludedIndex := by omega
  have newer : ¬ index ≤ (n.compacted s).snapshot.lastIncludedIndex := Nat.not_le_of_lt beyond
  have length : index - n.snapshot.lastIncludedIndex - 1 -
      (s.lastIncludedIndex - n.snapshot.lastIncludedIndex) = index - s.lastIncludedIndex - 1 := by
      omega
  have cut : ((n.log.take (index - n.snapshot.lastIncludedIndex - 1)).filter
      fun entry => s.lastIncludedIndex < entry.index) =
      (n.compacted s).log.take (index - s.lastIncludedIndex - 1) := by
    rw [(wf.contiguous.take _).filter_lt later, compacted_log wf bounds, List.drop_take, length]
  simp only [truncateFromLocked, if_neg older, if_neg newer]
  simp only [compacted, List.filter_append, filter_newer after, cut]

theorem mergeLoop_compacted (wf : WellFormed n) (bounds : n.Bounds s) (result : MergeEntriesResult)
    (after : ∀ entry ∈ entries, s.lastIncludedIndex < entry.index) :
    (n.compacted s).mergeLoop result entries =
      ((n.mergeLoop result entries).1.compacted s, (n.mergeLoop result entries).2) := by
  induction entries generalizing n result with
  | nil => rfl
  | cons entry entries ih =>
      have first := after entry List.mem_cons_self
      have rest := fun other member => after other (List.mem_cons_of_mem entry member)
      have later := bounds.later
      have newer : ¬ entry.index ≤ (n.compacted s).snapshot.lastIncludedIndex :=
        Nat.not_le_of_lt first
      have older : ¬ entry.index ≤ n.snapshot.lastIncludedIndex := by omega
      have commit : (n.compacted s).commitIndex = n.commitIndex := rfl
      simp only [mergeLoop, if_neg newer, if_neg older, lastIndexLocked_compacted wf bounds,
        termAtLocked_trimmed wf bounds first.le, commit]
      split
      · split
        · exact ih wf bounds result rest
        split
        · rfl
        · rw [truncated_compacted wf bounds first after]
      split
      · rfl
      · rename_i next
        have grown : n.Upholds { n with log := n.log ++ [entry] } :=
          .snoc wf (by simpa using next) rfl rfl rfl rfl
        have commutes : { n.compacted s with log := (n.compacted s).log ++ [entry] } =
            compacted { n with log := n.log ++ [entry] } s := by
          simp [compacted, first]
        have step := ih grown.wellFormed (bounds.upheld wf grown rfl)
          { result with changed := true, appended := result.appended ++ [entry] } rest
        rw [← commutes] at step
        exact step

theorem mergeEntriesLocked_compacted (wf : WellFormed n) (bounds : n.Bounds s) (prevLogIndex : Nat)
    (after : ∀ entry ∈ entries, s.lastIncludedIndex < entry.index) :
    (n.compacted s).mergeEntriesLocked prevLogIndex entries =
      ((n.mergeEntriesLocked prevLogIndex entries).1.compacted s,
        (n.mergeEntriesLocked prevLogIndex entries).2) := by
  have valid : (n.compacted s).validateEntriesLocked prevLogIndex entries =
      n.validateEntriesLocked prevLogIndex entries := validateFrom_newer bounds.later after
  simp only [mergeEntriesLocked, valid, lastNewIndex_compacted bounds.later after]
  split
  · rfl
  · exact mergeLoop_compacted wf bounds _ after

/-- The two answers agree in all that a leader decides by. -/
def SameAnswer (first second : AppendEntriesResponse) : Prop :=
  second.term = first.term ∧ second.success = first.success

theorem commitTo_compacted (newCommit : Nat) :
    ((n.compacted s).commitTo newCommit).value.1 = (n.commitTo newCommit).value.1.compacted s ∧
      SameAnswer (n.commitTo newCommit).value.2 ((n.compacted s).commitTo newCommit).value.2 := by
  have commit : (n.compacted s).commitIndex = n.commitIndex := rfl
  unfold commitTo
  rw [commit]
  simp only [persistHardStateLocked, saveHardStateLocked, perform_bind]
  split <;> exact ⟨rfl, rfl, rfl⟩

theorem spliceEntries_compacted (wf : WellFormed n) (bounds : n.Bounds s)
    {req : AppendEntriesRequest}
    (after : ∀ entry ∈ req.entries, s.lastIncludedIndex < entry.index) :
    ((n.compacted s).spliceEntries cfg req).value.1 = (n.spliceEntries cfg req).value.1.compacted
      s ∧ SameAnswer (n.spliceEntries cfg req).value.2
        ((n.compacted s).spliceEntries cfg req).value.2 := by
  simp only [spliceEntries, mergeEntriesLocked_compacted wf bounds _ after]
  generalize n.mergeEntriesLocked req.prevLogIndex req.entries = outcome
  rcases outcome with ⟨merged, result⟩
  simp only
  split
  · exact ⟨rfl, rfl, rfl⟩
  split
  · simp only [perform_bind, value_call, if_true]
    exact commitTo_compacted _
  · exact commitTo_compacted _

theorem matchEntries_compacted (wf : WellFormed n) (bounds : n.Bounds s)
    {req : AppendEntriesRequest} (beyond : s.lastIncludedIndex ≤ req.prevLogIndex)
    (after : ∀ entry ∈ req.entries, s.lastIncludedIndex < entry.index) :
    ((n.compacted s).matchEntries cfg req).value.1 = (n.matchEntries cfg req).value.1.compacted s ∧
      SameAnswer (n.matchEntries cfg req).value.2
        ((n.compacted s).matchEntries cfg req).value.2 := by
  have named : Upholds n { n with leaderID := req.leaderID } := .of_same wf rfl rfl rfl rfl
  have led : WellFormed { n with leaderID := req.leaderID } := named.wellFormed
  have kept : Bounds { n with leaderID := req.leaderID } s := bounds.upheld wf named rfl
  have older : ¬ req.prevLogIndex < n.snapshot.lastIncludedIndex := by
    have later := bounds.later
    omega
  have newer : ¬ req.prevLogIndex < (n.compacted s).snapshot.lastIncludedIndex :=
    Nat.not_lt_of_le beyond
  have previous := termAtLocked_trimmed led kept beyond
  have renamed : { n.compacted s with leaderID := req.leaderID } =
      compacted { n with leaderID := req.leaderID } s := rfl
  simp only [matchEntries, if_neg older, if_neg newer]
  rw [renamed, previous]
  split
  · exact ⟨rfl, rfl, rfl⟩
  · exact spliceEntries_compacted led kept after

/-- A well-formed request whose previous entry is not below the newer snapshot. -/
theorem handleAppendEntries_compacted (wf : WellFormed n) (bounds : n.Bounds s)
    {req : AppendEntriesRequest} (beyond : s.lastIncludedIndex ≤ req.prevLogIndex)
    (ordered : Contiguous req.prevLogIndex req.entries) :
    ((n.compacted s).handleAppendEntries cfg req).value.1 =
        (n.handleAppendEntries cfg req).value.1.compacted s ∧
      SameAnswer (n.handleAppendEntries cfg req).value.2
        ((n.compacted s).handleAppendEntries cfg req).value.2 := by
  have after (entry : LogEntry) (member : entry ∈ req.entries) :
      s.lastIncludedIndex < entry.index :=
    beyond.trans_lt (ordered.mem member).1
  have stopped : (n.compacted s).stopped = n.stopped := rfl
  have fatal : (n.compacted s).storageFatal = n.storageFatal := rfl
  have term : (n.compacted s).currentTerm = n.currentTerm := rfl
  have role : (n.compacted s).role = n.role := rfl
  unfold handleAppendEntries
  rw [stopped, fatal, term, role]
  simp only
  split
  · exact ⟨rfl, rfl, rfl⟩
  split
  · exact ⟨rfl, rfl, rfl⟩
  split
  · exact ⟨rfl, rfl, rfl⟩
  split
  · simp only [value_bind, becomeFollowerLocked_value, if_true, steppedDown_compacted]
    rcases steppedDown_bounds cfg bounds wf req.term req.leaderID with ⟨down, kept⟩
    exact matchEntries_compacted down kept beyond after
  · exact matchEntries_compacted wf bounds beyond after

end Appends

theorem Trims.wellFormed (trims : n.Trims m) : WellFormed m := by
  rcases trims with ⟨wf, s, bounds, rfl⟩
  refine ⟨compacted_contiguous wf bounds, bounds.applied, wf.applied, ?_⟩
  rw [lastIndexLocked_compacted wf bounds]
  exact wf.committed

theorem Trims.refl (wf : WellFormed n) : n.Trims n := by
  refine ⟨wf, n.snapshot, ⟨le_rfl, wf.compacted, fun _ => rfl, fun later =>
    absurd later (lt_irrefl _)⟩, ?_⟩
  have whole := compacted_log wf
    ⟨le_rfl, wf.compacted, fun _ => rfl, fun later => absurd later (lt_irrefl _)⟩
  rw [Nat.sub_self, List.drop_zero] at whole
  exact congrArg (fun log => { n with log := log }) whole.symm

section Installs

theorem receiveChunk_compacted (progress : SnapshotProgress) (req : InstallSnapshotRequest) :
    (n.compacted s).receiveChunk progress req =
      ((n.receiveChunk progress req).1.compacted s, (n.receiveChunk progress req).2) := by
  unfold receiveChunk
  split
  · rfl
  simp only
  split <;> rfl

theorem collectChunk_compacted (req : InstallSnapshotRequest) :
    (n.compacted s).collectChunk req =
    ((n.collectChunk req).1.compacted s, (n.collectChunk req).2) := by
  have commit : (n.compacted s).commitIndex = n.commitIndex := rfl
  have pending : (n.compacted s).pendingSnapshot = n.pendingSnapshot := rfl
  have received (progress : SnapshotProgress) :=
    @receiveChunk_compacted { n with leaderID := req.leaderID } s progress req
  unfold collectChunk
  simp only [commit, pending]
  split
  · rfl
  split
  · split
    · exact received _
    split
    · rfl
    · exact received _
  · split
    · rfl
    · exact received _

theorem handleInstallSnapshot_compacted (req : InstallSnapshotRequest) :
    ((n.compacted s).handleInstallSnapshot cfg req).value =
      ((n.handleInstallSnapshot cfg req).value.1.compacted s,
        (n.handleInstallSnapshot cfg req).value.2) := by
  have stopped : (n.compacted s).stopped = n.stopped := rfl
  have fatal : (n.compacted s).storageFatal = n.storageFatal := rfl
  have term : (n.compacted s).currentTerm = n.currentTerm := rfl
  have role : (n.compacted s).role = n.role := rfl
  unfold handleInstallSnapshot
  rw [stopped, fatal, term, role]
  split
  · rfl
  split
  · rfl
  split
  · rfl
  split
  · simp only [value_bind, becomeFollowerLocked_value, if_true, steppedDown_compacted]
    exact collectChunk_compacted req
  · exact collectChunk_compacted req

variable (wf : WellFormed n) (bounds : n.Bounds s)

include wf bounds

theorem logAfterSnapshotLocked_compacted {snapshot : Snapshot}
    (newer : n.commitIndex < snapshot.lastIncludedIndex) :
    (n.compacted s).logAfterSnapshotLocked snapshot = n.logAfterSnapshotLocked snapshot := by
  have bound := bounds.applied
  have applied := wf.applied
  have twice : (n.compacted s).compacted snapshot = n.compacted snapshot :=
    compacted_compacted (by omega)
  have rest : ((n.compacted s).log.filter fun entry => snapshot.lastIncludedIndex < entry.index) =
      n.log.filter fun entry => snapshot.lastIncludedIndex < entry.index := congrArg Node.log twice
  unfold logAfterSnapshotLocked
  rw [termAtLocked_trimmed wf bounds (by omega), rest]

theorem persistInstall_trims {snapshot : Snapshot}
    (newer : n.commitIndex < snapshot.lastIncludedIndex) (length : Nat) :
    (n.persistInstall cfg snapshot length).value.1.Trims
        ((n.compacted s).persistInstall cfg snapshot length).value.1 ∧
      ((n.compacted s).persistInstall cfg snapshot length).value.2 =
        (n.persistInstall cfg snapshot length).value.2 := by
  -- An installation leaves nothing of the old snapshot.
  have same : ((n.compacted s).persistInstall cfg snapshot length).value =
      (n.persistInstall cfg snapshot length).value := by
    unfold persistInstall
    rw [logAfterSnapshotLocked_compacted wf bounds newer]
    rfl
  have installed : WellFormed (n.persistInstall cfg snapshot length).value.1 := by
    have upholds := upholds_install wf newer
    rw [← max_eq_right newer.le] at upholds
    exact upholds.wellFormed
  rw [same]
  exact ⟨.refl installed, rfl⟩

theorem finishInstall_trims (req : InstallSnapshotRequest) (body : Bytes) (data : Option KVMap) :
    (n.finishInstall cfg req body data).value.1.Trims
    ((n.compacted s).finishInstall cfg req body data).value.1 ∧
      ((n.compacted s).finishInstall cfg req body data).value.2 =
        (n.finishInstall cfg req body data).value.2 := by
  have commit : (n.compacted s).commitIndex = n.commitIndex := rfl
  have pending : (n.compacted s).pendingSnapshot = n.pendingSnapshot := rfl
  have named : Upholds n { n with leaderID := req.leaderID } := .of_same wf rfl rfl rfl rfl
  have led : WellFormed { n with leaderID := req.leaderID } := named.wellFormed
  have kept : Bounds { n with leaderID := req.leaderID } s := bounds.upheld wf named rfl
  have quiet (m : Node) (moves : Moves cfg n m) : m.Trims (m.compacted s) :=
    bounds.moves wf moves rfl
  unfold finishInstall
  simp only [commit, pending]
  split
  · exact ⟨quiet _ (setPending_moves req.leaderID none), rfl⟩
  rename_i newer
  split
  · exact ⟨quiet _ (setLeader_moves req.leaderID), rfl⟩
  split
  · exact persistInstall_trims led kept (Nat.lt_of_not_le newer) body.length
  · exact ⟨quiet _ (setLeader_moves req.leaderID), rfl⟩

theorem installDecoded_trims (req : InstallSnapshotRequest) (body : Bytes) (data : Option KVMap) :
    (n.installDecoded cfg req body data).value.1.Trims
    ((n.compacted s).installDecoded cfg req body data).value.1 ∧
      ((n.compacted s).installDecoded cfg req body data).value.2 =
        (n.installDecoded cfg req body data).value.2 := by
  have stopped : (n.compacted s).stopped = n.stopped := rfl
  have fatal : (n.compacted s).storageFatal = n.storageFatal := rfl
  have term : (n.compacted s).currentTerm = n.currentTerm := rfl
  have role : (n.compacted s).role = n.role := rfl
  have cleared : Moves cfg n { n with pendingSnapshot := none } := clearPending_moves
  have quiet : Trims { n with pendingSnapshot := none }
    { n.compacted s with pendingSnapshot := none } :=
    bounds.moves wf cleared rfl
  unfold installDecoded
  rw [stopped, fatal, term, role]
  simp only
  split
  · exact ⟨quiet, rfl⟩
  split
  · exact ⟨quiet, rfl⟩
  split
  · exact ⟨quiet, rfl⟩
  split
  · simp only [value_bind, becomeFollowerLocked_value, if_true, steppedDown_compacted]
    rcases steppedDown_bounds cfg bounds wf req.term req.leaderID with ⟨down, kept⟩
    exact finishInstall_trims down kept req body data
  · exact finishInstall_trims wf bounds req body data

end Installs

section Proposals

variable (wf : WellFormed n) (bounds : n.Bounds s)

include wf bounds

theorem commitTarget_compacted (start : Nat) :
    (n.compacted s).commitTarget cfg start = n.commitTarget cfg start := by
  induction start with
  | zero => rfl
  | succ index ih =>
      have commit : (n.compacted s).commitIndex = n.commitIndex := rfl
      have count : (n.compacted s).replicaCount cfg (index + 1) = n.replicaCount cfg (index + 1) :=
        rfl
      have current : (n.compacted s).currentTerm = n.currentTerm := rfl
      have bound := bounds.applied
      have applied := wf.applied
      simp only [commitTarget, commit, count, current, ih]
      split
      · rfl
      · rw [termAtLocked_trimmed wf bounds (by omega)]

theorem advanceCommitLocked_compacted :
    ((n.compacted s).advanceCommitLocked cfg).value =
      (n.advanceCommitLocked cfg).value.compacted s := by
  unfold advanceCommitLocked
  rw [commitTarget_compacted wf bounds, lastIndexLocked_compacted wf bounds]
  split <;> rfl

theorem proposeAppend_compacted (command : Command) (chan : ChanId) :
    ((n.compacted s).proposeAppend cfg command chan).value =
      ((n.proposeAppend cfg command chan).value.1.compacted s,
        (n.proposeAppend cfg command chan).value.2) := by
  have stopped : (n.compacted s).stopped = n.stopped := rfl
  have fatal : (n.compacted s).storageFatal = n.storageFatal := rfl
  have term : (n.compacted s).currentTerm = n.currentTerm := rfl
  have role : (n.compacted s).role = n.role := rfl
  unfold proposeAppend
  rw [stopped, fatal, term, role, lastIndexLocked_compacted wf bounds]
  split
  · rfl
  split
  · rfl
  split
  · rfl
  simp only [perform_bind, value_call, value_bind, if_true]
  generalize made :
    ({ index := n.lastIndexLocked + 1, term := n.currentTerm, command := command } : LogEntry) =
    entry
  have next : entry.index = n.lastIndexLocked + 1 := made ▸ rfl
  have after : s.lastIncludedIndex < entry.index := by
    have bound := bounds.applied
    have applied := wf.applied
    have committed := wf.committed
    omega
  have grown : n.Upholds (n.accepted cfg entry chan) := .snoc wf next rfl rfl rfl rfl
  have commutes : (n.compacted s).accepted cfg entry chan =
    (n.accepted cfg entry chan).compacted s := by
    simp [accepted, compacted, after]
  rw [commutes, advanceCommitLocked_compacted grown.wellFormed (bounds.upheld wf grown rfl)]
  rfl

end Proposals

section Applies

variable (wf : WellFormed n) (bounds : n.Bounds s)

include wf bounds

theorem applyNext_compacted :
    (n.compacted s).applyNext = (n.applyNext.1.compacted s, n.applyNext.2) := by
  have trims : n.Trims (n.compacted s) := ⟨wf, s, bounds, rfl⟩
  have bound := bounds.applied
  have next : (n.compacted s).entryAtLocked (n.lastApplied + 1) =
      n.entryAtLocked (n.lastApplied + 1) :=
    entryAtLocked_trimmed wf bounds (by omega)
  rw [applyNext_eq trims.wellFormed, applyNext_eq wf, ← next]
  rfl

theorem stillApplies_compacted (entry : LogEntry) :
    (n.compacted s).stillApplies entry = n.stillApplies entry := by
  have bound := bounds.applied
  have applied : (n.compacted s).lastApplied = n.lastApplied := rfl
  have commit : (n.compacted s).commitIndex = n.commitIndex := rfl
  unfold stillApplies
  rw [applied, commit, decide_eq_decide]
  apply and_congr_right
  intro next
  rw [entryAtLocked_trimmed wf bounds (by omega)]

theorem applyDone_compacted (entry : LogEntry) (result : ApplyResult) :
    ((n.compacted s).applyDone cfg entry result).1 =
      (n.applyDone cfg entry result).1.compacted s := by
  rw [applyDone_eq, applyDone_eq, stillApplies_compacted wf bounds]
  split <;> rfl

end Applies

end Node

end GoRaftKV.Raft
