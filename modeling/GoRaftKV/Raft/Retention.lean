import GoRaftKV.Raft.Durable

/-! The locked sections against a store whose calls may fail. Memory then runs ahead of the files or
falls behind them, but what the files have committed stays in the log they hold. -/

namespace GoRaftKV.Raft

open Storage Library Program

/-- If `Load` succeeds, it returns a log that reaches the saved commit index. -/
def CommitCovered (disk : Disk) : Prop :=
  ∀ loaded, disk.load = .ok loaded →
    loaded.hardState.commitIndex ≤ lastIndex loaded.snapshot loaded.entries

/-- The files next to the snapshot file `saved`, and memory `n` in a section that began with
`start`: no more is committed on disk than in memory, and a WAL that can be read at all holds
memory's log. -/
structure Retains (start : Node) (saved : Option Snapshot) (disk : Disk) (n : Node) : Prop where
  upholds : start.Upholds n
  boundary : n.snapshot = start.snapshot
  snapshot : disk.snapshot = saved
  commit : (disk.hardState.getD {}).commitIndex ≤ n.commitIndex
  covers : n.Covers (saved.getD {})
  records : ∀ data, readWAL disk.wal = .ok data → Records disk.wal n.snapshot n.log

/-- What a crash leaves behind as long as the snapshot file is `saved`. -/
structure Spared (saved : Option Snapshot) (disk : Disk) : Prop where
  snapshot : disk.snapshot = saved
  covered : CommitCovered disk

theorem readWAL_image_start {baseIndex baseTerm : Nat} {entry : LogEntry} {entries : List LogEntry}
    {data : WalData}
    (read : readWAL (some (walImage baseIndex baseTerm (entry :: entries))) = .ok data) :
    baseIndex < entry.index := by
  by_contra early
  by_cases zero : entry.index = 0 <;>
    simp [readWAL, walImage, readRecords, readRecord, zero, Nat.le_of_not_lt early] at read

theorem readWAL_front {front back : List WalRecord} {data : WalData}
    (read : readWAL (some (front ++ back)) = .ok data) :
    ∃ first, readWAL (some front) = .ok first := by
  simp only [readWAL, Option.getD_some] at read ⊢
  rw [readRecords_append] at read
  cases first : readRecords {} front with
  | error error =>
      rw [first] at read
      cases read
  | ok wal => exact ⟨wal, rfl⟩

theorem readWAL_getD (wal : Option (List WalRecord)) : readWAL (some (wal.getD [])) = readWAL wal :=
  rfl

theorem WellFormed.covered {n : Node} (wf : WellFormed n) {base : Snapshot}
    (later : n.snapshot.lastIncludedIndex ≤ base.lastIncludedIndex) :
    n.commitIndex ≤ lastIndex base
      (n.log.filter fun entry => base.lastIncludedIndex < entry.index) := by
  have rest := wf.contiguous.drop (base.lastIncludedIndex - n.snapshot.lastIncludedIndex)
  rw [Nat.add_sub_cancel' later] at rest
  have committed := wf.committed
  rw [Node.lastIndexLocked_eq wf.contiguous] at committed
  rw [wf.contiguous.filter_lt later, rest.lastIndex, List.length_drop]
  omega

theorem Node.Covers.later {n : Node} {base : Snapshot} (covers : n.Covers base) :
    n.snapshot.lastIncludedIndex ≤ base.lastIncludedIndex := by
  rcases covers with rfl | ⟨worth, -⟩
  · exact le_rfl
  · simp only [Node.worthPersisting, decide_eq_true_eq] at worth
    exact worth.1.le

theorem Node.Covers.applied {n : Node} {base : Snapshot} (covers : n.Covers base)
    (wf : WellFormed n) :
    base.lastIncludedIndex ≤ n.lastApplied := by
  rcases covers with rfl | ⟨worth, -⟩
  · exact wf.compacted
  · simp only [Node.worthPersisting, decide_eq_true_eq] at worth
    exact worth.2

namespace Retains

variable {cfg : Config} {start : Node} {saved : Option Snapshot} {disk : Disk} {n m : Node}

theorem wf (retains : Retains start saved disk n) : WellFormed n := retains.upholds.wellFormed

theorem covered (retains : Retains start saved disk n) : CommitCovered disk := by
  intro loaded loads
  rcases Disk.load_cases loads with ⟨data, read, -⟩
  have covers := retains.covers
  rw [← retains.snapshot] at covers
  rcases covers.load retains.wf.contiguous rfl (retains.records data read) with ⟨rewrite, known⟩
  rw [loads] at known
  cases known
  exact retains.commit.trans (retains.wf.covered covers.later)

theorem spared (retains : Retains start saved disk n) : Spared saved disk :=
  ⟨retains.snapshot, retains.covered⟩

theorem upheld (retains : Retains start saved disk n) (upholds : n.Upholds m)
    (snapshot : m.snapshot = n.snapshot) (log : m.log = n.log) : Retains start saved disk m where
  upholds := retains.upholds.trans upholds
  boundary := snapshot.trans retains.boundary
  snapshot := retains.snapshot
  commit := retains.commit.trans upholds.commit
  covers := retains.covers.upheld retains.wf upholds snapshot
  records := by
    rw [snapshot, log]
    exact retains.records

theorem move (retains : Retains start saved disk n) (move : Node.Move cfg n m)
    (log : m.log = n.log) :
    Retains start saved disk m :=
  retains.upheld (move.upholds retains.wf) move.snapshot log

theorem same (retains : Retains start saved disk n) (snapshot : m.snapshot = n.snapshot)
    (log : m.log = n.log) (applied : m.lastApplied = n.lastApplied)
    (commit : m.commitIndex = n.commitIndex) :
    Retains start saved disk m :=
  retains.upheld (.of_same retains.wf log snapshot applied commit) snapshot log

theorem fail (retains : Retains start saved disk n) (cfg : Config) :
    Retains start saved disk (n.failStorageLocked cfg) :=
  retains.same rfl rfl rfl rfl

theorem save (retains : Retains start saved disk n) {hs : HardState}
    (bound : hs.commitIndex ≤ n.commitIndex) :
    Retains start saved { disk with hardState := some hs } n where
  upholds := retains.upholds
  boundary := retains.boundary
  snapshot := retains.snapshot
  commit := bound
  covers := retains.covers
  records := retains.records

theorem blank (retains : Retains start saved disk n) (empty : disk.wal.getD [] = []) :
    disk.snapshot.getD {} = n.snapshot := by
  rw [retains.snapshot]
  rcases retains.covers with same | ⟨worth, -⟩
  · exact same
  · simp only [Node.worthPersisting, decide_eq_true_eq] at worth
    have read : readWAL disk.wal = .ok {} := by
      rw [← readWAL_getD, empty]
      rfl
    have last := Node.lastIndexLocked_eq retains.wf.contiguous
    rw [(retains.records _ read).empty empty] at last
    have applied := retains.wf.applied
    have committed := retains.wf.committed
    simp only [List.length_nil] at last
    omega

variable {entries : List LogEntry}

theorem grown (retains : Retains start saved disk n)
    (next : Contiguous (n.snapshot.lastIncludedIndex + n.log.length) entries) :
    n.Upholds { n with log := n.log ++ entries } := by
  have grown := Node.upholds_merge retains.wf le_rfl (by
    rw [← Node.lastIndexLocked_eq retains.wf.contiguous]
    exact retains.wf.committed) next
  rwa [List.take_length] at grown

theorem torn (retains : Retains start saved disk n)
    (next : Contiguous (n.snapshot.lastIncludedIndex + n.log.length) entries) (reached : Nat) :
    ∃ count, Retains start saved (Disk.torn (.appendEntries entries) reached disk)
      { n with log := n.log ++ entries.take count } := by
  have nothing : Retains start saved disk { n with log := n.log ++ entries.take 0 } :=
    retains.same rfl (by simp) rfl rfl
  cases reached with
  | zero => exact ⟨0, nothing⟩
  | succ reached =>
      simp only [Disk.torn]
      split
      · exact ⟨0, nothing⟩
      · rcases appendedRecords_take disk entries reached with ⟨count, arrived⟩
        have upholds := retains.grown (next.take count)
        refine ⟨count, retains.upholds.trans upholds, retains.boundary, retains.snapshot,
          retains.commit, retains.covers.upheld retains.wf upholds rfl, ?_⟩
        intro data read
        rcases readWAL_front read with ⟨first, before⟩
        rw [← retains.wf.contiguous.lastIndex] at next
        have records := (retains.records first before).torn_append next retains.blank reached
        rwa [arrived] at records

theorem append (retains : Retains start saved disk n)
    (next : Contiguous (n.snapshot.lastIncludedIndex + n.log.length) entries) :
    Retains start saved (Disk.complete (.appendEntries entries) disk)
      { n with log := n.log ++ entries } := by
  have upholds := retains.grown next
  simp only [Disk.complete]
  split
  · rename_i empty
    exact retains.same rfl (by simp [empty]) rfl rfl
  · refine ⟨retains.upholds.trans upholds, retains.boundary, retains.snapshot, retains.commit,
      retains.covers.upheld retains.wf upholds rfl, ?_⟩
    intro data read
    rcases readWAL_front read with ⟨first, before⟩
    rw [← retains.wf.contiguous.lastIndex] at next
    exact (retains.records first before).append next retains.blank

theorem replace (retains : Retains start saved disk n) (upholds : n.Upholds m)
    (snapshot : m.snapshot = n.snapshot) :
    Retains start saved (Disk.complete (.replaceEntries m.log) disk) m where
  upholds := retains.upholds.trans upholds
  boundary := snapshot.trans retains.boundary
  snapshot := retains.snapshot
  commit := retains.commit.trans upholds.commit
  covers := retains.covers.upheld retains.wf upholds snapshot
  records := by
  -- The WAL is rewritten with the log of `m`. Under a newer snapshot it cannot be read any more.
    intro data read
    have wf := upholds.wellFormed
    simp only [Disk.complete, snapshotBaseLocked, retains.snapshot] at read ⊢
    -- Under a newer snapshot the first entry of the log is already covered by the base record.
    rcases retains.covers.upheld retains.wf upholds snapshot with same | ⟨worth, -⟩
    · rw [same]
      exact records_image wf.contiguous
    · simp only [Node.worthPersisting, decide_eq_true_eq] at worth
      cases shape : m.log with
      | nil =>
          have last := Node.lastIndexLocked_eq wf.contiguous
          rw [shape, List.length_nil] at last
          have applied := wf.applied
          have committed := wf.committed
          omega
      | cons head rest =>
          have first := wf.contiguous
          rw [shape, contiguous_cons] at first
          rw [shape] at read
          have after := readWAL_image_start read
          omega

theorem spared_newer (retains : Retains start saved disk n) {newer : Snapshot}
    (beyond : n.commitIndex < newer.lastIncludedIndex) :
    Spared (some newer) { disk with snapshot := some newer } := by
  -- A snapshot beyond the commit index covers it, whatever becomes of the log.
  refine ⟨rfl, fun loaded loads => ?_⟩
  have applied := retains.wf.applied
  have compacted := retains.wf.compacted
  have commit := retains.commit
  rcases Disk.load_cases loads with ⟨data, read, -⟩
  have records : Records ({ disk with snapshot := some newer } : Disk).wal n.snapshot n.log :=
    retains.records data read
  have later : n.snapshot.lastIncludedIndex < newer.lastIncludedIndex := by omega
  have current : ({ disk with snapshot := some newer } : Disk).snapshot.getD {} = newer := rfl
  rcases records.load_newer current later with ⟨rewrite, known⟩
  rw [loads] at known
  cases known
  have reaches := lastIndex_newer (survivors_after n.log newer)
  simp only
  omega

theorem spared_image (retains : Retains start saved disk n) {newer : Snapshot} {log : List LogEntry}
    (beyond : n.commitIndex < newer.lastIncludedIndex)
    (contiguous : Contiguous newer.lastIncludedIndex log) :
    Spared (some newer) { disk with
      snapshot := some newer
      wal := some (walImage newer.lastIncludedIndex newer.lastIncludedTerm log) } := by
  refine ⟨rfl, fun loaded loads => ?_⟩
  have commit := retains.commit
  have known := @Disk.load_image newer log { disk with snapshot := some newer } contiguous rfl
  rw [loads] at known
  cases known
  have reaches := contiguous.lastIndex
  simp only
  omega

end Retains

/-- What a crash leaves behind when the snapshot file may have been replaced by a newer one. -/
def SparedBeyond (saved : Option Snapshot) (disk : Disk) : Prop :=
  ∃ file, (saved.getD {}).lastIncludedIndex ≤ (file.getD {}).lastIncludedIndex ∧ Spared file disk

/-- How an installation that began with `start` leaves files and memory: the old snapshot file is
still there, or the new one is, and then memory follows unless the storage has failed in between. -/
def InstallRetains (start : Node) (saved : Option Snapshot) (disk : Disk) (n : Node) : Prop :=
  Retains start saved disk n ∨
    ∃ snapshot, start.commitIndex < snapshot.lastIncludedIndex ∧ disk.snapshot = some snapshot ∧
      (n.storageFatal = false → start.Upholds n ∧ n.snapshot = snapshot ∧
        Retains n (some snapshot) disk n)

namespace Node

variable {cfg : Config} {start : Node} {saved : Option Snapshot} {disk : Disk} {n m : Node}

theorem saveHardState_retained {α : Type} {next : Bool → Program StoreOp α} {post : α → Disk → Prop}
    {hs : HardState} (retains : Retains start saved disk n) (changed : Retains start saved disk m)
    (bound : hs.commitIndex ≤ m.commitIndex)
    (success : ∀ after, Retains start saved after m →
      (next true).wpFaulty store post (Spared saved) after)
    (failure : (next false).wpFaulty store post (Spared saved) disk) :
    (call (.saveHardState hs) next).wpFaulty store post (Spared saved) disk := by
  have kept := changed.save bound
  refine ⟨success _ kept, failure, fun reached => ?_⟩
  cases reached with
  | zero =>
      rw [store.torn_zero]
      exact retains.spared
  | succ reached => exact kept.spared

theorem becomeFollowerLocked_retained {term : Nat} {leaderID : NodeId}
    {post : Node × Bool → Disk → Prop} (retains : Retains start saved disk n)
    (success : ∀ after, Retains start saved after (n.steppedDown cfg term leaderID) →
      post (n.steppedDown cfg term leaderID, true) after)
    (failure : Retains start saved disk ((n.followerAt term leaderID).failStorageLocked cfg) →
      post ((n.followerAt term leaderID).failStorageLocked cfg, false) disk) :
    (n.becomeFollowerLocked cfg term leaderID).wpFaulty store post (Spared saved) disk := by
  have down := retains.move (.follow n term leaderID) (steppedDown_eq n cfg term leaderID).2.2
  have failed := retains.move (@Move.fail cfg n term leaderID) (by rw [followerAt_eq]; rfl)
  simp only [becomeFollowerLocked, persistHardStateLocked, saveHardStateLocked, perform_bind]
  refine saveHardState_retained retains down ?_ ?_ (failure failed)
  · rw [steppedDown_commitIndex, followerAt_eq]
    rfl
  · intro after kept
    have ending := success after kept
    unfold steppedDown at ending
    simp only [if_true]
    split <;> rename_i role
    · rwa [if_pos role] at ending
    · rwa [if_neg role] at ending

theorem castVote_retained (req : RequestVoteRequest) (retains : Retains start saved disk n) :
    (n.castVote req).wpFaulty store (fun r after => Retains start saved after r.1) (Spared saved)
      disk := by
  unfold castVote
  split
  · simp only [persistHardStateLocked, saveHardStateLocked, perform_bind]
    have voted : Retains start saved disk { n with votedFor := req.candidateID } :=
      retains.same rfl rfl rfl rfl
    exact saveHardState_retained retains voted le_rfl (fun after kept => kept) retains
  · exact retains

theorem handleRequestVote_retained (req : RequestVoteRequest)
    (retains : Retains start saved disk n) :
    (n.handleRequestVote cfg req).wpFaulty store (fun r after => Retains start saved after r.1)
      (Spared saved) disk := by
  unfold handleRequestVote
  split
  · exact retains
  split
  · exact retains
  split
  · exact retains
  split
  · apply wpFaulty_bind
    apply becomeFollowerLocked_retained retains
    · intro after kept
      exact castVote_retained req kept
    · intro kept
      exact kept
  · exact castVote_retained req retains

theorem commitTo_retained (cfg : Config) {newCommit : Nat} (retains : Retains start saved disk n)
    (bound : newCommit ≤ n.lastIndexLocked) :
    (n.commitTo newCommit).wpFaulty store (fun r after => Retains start saved after r.1)
    (Spared saved) disk := by
  unfold commitTo
  split
  · rename_i later
    simp only [persistHardStateLocked, saveHardStateLocked, perform_bind]
    have committed := retains.move (@Move.commit cfg n newCommit later.le bound) rfl
    exact saveHardState_retained retains committed le_rfl (fun after kept => kept) retains
  · exact retains

theorem spliceEntries_retained {req : AppendEntriesRequest} (retains : Retains start saved disk n)
    (follows : n.role = .follower) (bound : req.prevLogIndex ≤ n.lastIndexLocked)
    (safe : n.SpliceSafe req.entries) :
    (n.spliceEntries cfg req).wpFaulty store (fun r after => Retains start saved after r.1)
      (Spared saved) disk := by
  have wf := retains.wf
  unfold spliceEntries
  rcases mergeEntriesLocked_cases wf.contiguous bound req.entries with
    ⟨conflict, positive, invalid⟩ | ⟨ordered, merged⟩
  · simp only [invalid, if_pos positive]
    exact retains
  generalize n.mergeEntriesLocked req.prevLogIndex req.entries = outcome at merged ⊢
  obtain ⟨m, result⟩ := outcome
  rcases merged.splice wf bound ordered safe rfl with ⟨same, conflict⟩ | ⟨none, keep, rest, splice⟩
  · simp only [if_pos conflict]
    subst same
    exact retains
  replace none : result.conflictIndex = 0 := none
  replace splice : Splice n _ m result keep rest := splice
  have moves : Moves cfg n m := splice.moves follows
  have upholds := moves.upholds wf
  have reaches : min req.leaderCommit result.lastNewIndex ≤ m.lastIndexLocked := by
    rw [splice.last wf, splice.newest]
    exact (min_le_right _ _).trans splice.reaches
  simp only [none, Nat.lt_irrefl, if_false]
  cases changed : result.changed with
  | false =>
      have appended : result.replaced = false := by
        cases replaced : result.replaced with
        | false => rfl
        | true =>
            rw [splice.replaced replaced] at changed
            cases changed
      have same : m = n := by
        rw [splice.memory, (splice.appended appended).1, splice.unchanged changed, List.take_length,
          List.append_nil]
      rw [same] at reaches ⊢
      exact commitTo_retained cfg retains reaches
  | true =>
      simp only [if_true, perform_bind]
      have failed : Retains start saved disk (failStorageLocked { m with log := n.log } cfg) := by
        rw [splice.memory]
        exact retains.fail cfg
      cases replaced : result.replaced with
      | true =>
          have written := retains.replace upholds moves.snapshot
          simp only [if_true]
          refine ⟨commitTo_retained cfg written reaches, failed, fun reached => ?_⟩
          cases reached with
          | zero =>
              rw [store.torn_zero]
              exact retains.spared
          | succ reached => exact written.spared
      | false =>
          obtain ⟨whole, entries⟩ := splice.appended replaced
          have next := splice.next
          rw [whole] at next
          have memory : m = { n with log := n.log ++ rest } := by
            rw [splice.memory, whole, List.take_length]
          simp only [Bool.false_eq_true, if_false, entries]
          refine ⟨?_, failed, fun reached => ?_⟩
          · apply commitTo_retained cfg _ reaches
            rw [memory]
            exact retains.append next
          · rcases retains.torn next reached with ⟨count, kept⟩
            exact kept.spared

theorem matchEntries_retained {req : AppendEntriesRequest} (retains : Retains start saved disk n)
    (follows : n.role = .follower) (safe : n.SpliceSafe req.entries) :
    (n.matchEntries cfg req).wpFaulty store (fun r after => Retains start saved after r.1)
      (Spared saved) disk := by
  have led : Retains start saved disk { n with leaderID := req.leaderID } :=
    retains.same rfl rfl rfl rfl
  unfold matchEntries
  simp only
  split
  · exact led
  split
  · exact led
  · rename_i after previous
    simp only [ne_eq, not_not] at previous
    apply spliceEntries_retained led follows
    · exact termAtLocked_bound led.wf.contiguous (Nat.le_of_not_lt after) previous
    · exact safe.congr rfl rfl

theorem handleAppendEntries_retained {req : AppendEntriesRequest}
    (retains : Retains start saved disk n) (safe : n.SpliceSafe req.entries) :
    (n.handleAppendEntries cfg req).wpFaulty store (fun r after => Retains start saved after r.1)
      (Spared saved) disk := by
  unfold handleAppendEntries
  simp only
  split
  · exact retains
  split
  · exact retains
  split
  · exact retains
  split
  · apply wpFaulty_bind
    apply becomeFollowerLocked_retained retains
    · intro after kept
      rcases steppedDown_eq n cfg req.term req.leaderID with ⟨follows, snapshot, log⟩
      exact matchEntries_retained kept follows (safe.congr snapshot log)
    · intro kept
      exact kept
  · rename_i settled
    push Not at settled
    exact matchEntries_retained retains settled.2 safe

theorem advanceCommitLocked_retained (retains : Retains start saved disk n) :
    (n.advanceCommitLocked cfg).wpFaulty store (fun m after => Retains start saved after m)
      (Spared saved) disk := by
  unfold advanceCommitLocked
  split
  · exact retains
  · rename_i index target
    rcases commitTarget_some target with ⟨later, bound, -⟩
    simp only [persistHardStateLocked, saveHardStateLocked, perform_bind]
    have committed := retains.move (@Move.commit cfg n index later.le bound) rfl
    exact saveHardState_retained retains committed le_rfl (fun after kept => kept)
      (retains.fail cfg)

theorem appendEntry_retained {α : Type} {next : Bool → Program StoreOp α} {post : α → Disk → Prop}
    {entry : LogEntry} (retains : Retains start saved disk n)
    (following : entry.index = n.lastIndexLocked + 1)
    (success : ∀ after, Retains start saved after { n with log := n.log ++ [entry] } →
      (next true).wpFaulty store post (Spared saved) after)
    (failure : (next false).wpFaulty store post (Spared saved) disk) :
    (call (.appendEntries [entry]) next).wpFaulty store post (Spared saved) disk := by
  have single : Contiguous (n.snapshot.lastIncludedIndex + n.log.length) [entry] := by
    rw [← lastIndexLocked_eq retains.wf.contiguous]
    simp [following]
  refine ⟨success _ (retains.append single), failure, fun reached => ?_⟩
  rcases retains.torn single reached with ⟨count, kept⟩
  exact kept.spared

theorem proposeAppend_retained (command : Command) (chan : ChanId)
    (retains : Retains start saved disk n) :
    (n.proposeAppend cfg command chan).wpFaulty store (fun r after => Retains start saved after r.1)
      (Spared saved) disk := by
  unfold proposeAppend
  split
  · exact retains
  split
  · exact retains
  split
  · exact retains
  simp only [perform_bind]
  apply appendEntry_retained retains rfl
  · intro after kept
    apply wpFaulty_bind
    exact advanceCommitLocked_retained (kept.same rfl rfl rfl rfl)
  · exact retains.fail cfg

theorem startElection_retained (retains : Retains start saved disk n) :
    (n.startElection cfg).wpFaulty store (fun r after => Retains start saved after r.1)
    (Spared saved) disk := by
  unfold startElection
  split
  · exact retains
  · simp only [persistHardStateLocked, saveHardStateLocked, perform_bind]
    have standing : Retains start saved disk (n.candidate cfg) := retains.same rfl rfl rfl rfl
    have failed : Retains start saved disk { n with leaderNoopIndex := 0 } :=
      retains.same rfl rfl rfl rfl
    exact saveHardState_retained retains standing le_rfl (fun after kept => kept) failed

theorem becomeLeader_retained (term : Nat) (retains : Retains start saved disk n) :
    (n.becomeLeader cfg term).wpFaulty store (fun m after => Retains start saved after m)
      (Spared saved) disk := by
  unfold becomeLeader
  split
  · exact retains
  simp only [perform_bind]
  apply appendEntry_retained retains rfl
  · intro after kept
    exact advanceCommitLocked_retained (kept.same rfl rfl rfl rfl)
  · have leading : Retains start saved disk (n.leading cfg) := retains.same rfl rfl rfl rfl
    exact leading.fail cfg

theorem stepDown_retained (term : Nat) (leaderID : NodeId) (retains : Retains start saved disk n) :
    (n.becomeFollowerLocked cfg term leaderID).wpFaulty store
    (fun r after => Retains start saved after r.1)
      (Spared saved) disk :=
  becomeFollowerLocked_retained retains (fun _ kept => kept) fun kept => kept

theorem replicateReply_retained (peer : NodeId) (req : AppendEntriesRequest)
    (resp : AppendEntriesResponse) (retains : Retains start saved disk n) :
    (n.replicateReply cfg peer req resp).wpFaulty store
    (fun r after => Retains start saved after r.1)
      (Spared saved) disk := by
  unfold replicateReply
  split
  · apply wpFaulty_bind
    exact stepDown_retained resp.term "" retains
  split
  · exact retains
  split
  · apply wpFaulty_bind
    exact advanceCommitLocked_retained (retains.same rfl rfl rfl rfl)
  split
  · exact retains.same rfl rfl rfl rfl
  · exact retains

theorem sendSnapshotReply_retained (term : Nat) (resp : InstallSnapshotResponse)
    (retains : Retains start saved disk n) :
    (n.sendSnapshotReply cfg term resp).wpFaulty store
    (fun r after => Retains start saved after r.1)
      (Spared saved) disk := by
  unfold sendSnapshotReply
  split
  · apply wpFaulty_bind
    exact stepDown_retained resp.term "" retains
  · exact retains

theorem handleInstallSnapshot_retained (req : InstallSnapshotRequest)
    (retains : Retains start saved disk n) :
    (n.handleInstallSnapshot cfg req).wpFaulty store (fun r after => Retains start saved after r.1)
      (Spared saved) disk := by
  have chunk (after : Disk) (m : Node) (kept : Retains start saved after m) :
      Retains start saved after (m.collectChunk req).1 := by
    rcases collectChunk_eq m req with ⟨pending, same⟩
    rw [same]
    exact kept.same rfl rfl rfl rfl
  unfold handleInstallSnapshot
  split
  · exact retains
  split
  · exact retains
  split
  · exact retains
  split
  · apply wpFaulty_bind
    apply becomeFollowerLocked_retained retains
    · intro after kept
      exact chunk after _ kept
    · intro kept
      exact kept.same rfl rfl rfl rfl
  · exact chunk disk n retains

theorem persistInstall_retained {snapshot : Snapshot} {length : Nat}
    (retains : Retains start saved disk n) (commit : n.commitIndex = start.commitIndex)
    (newer : n.commitIndex < snapshot.lastIncludedIndex) :
    (n.persistInstall cfg snapshot length).wpFaulty store
      (fun r after => InstallRetains start saved after r.1) (SparedBeyond saved) disk := by
  have wf := retains.wf
  have applied := wf.applied
  have compacted := wf.compacted
  have later := retains.covers.applied wf
  have beyond : start.commitIndex < snapshot.lastIncludedIndex := by omega
  have failed : Retains start saved disk (failStorageLocked { n with pendingSnapshot := none }
    cfg) :=
    retains.same rfl rfl rfl rfl
  have fatal {after : Disk} (present : after.snapshot = some snapshot) :
      InstallRetains start saved after (failStorageLocked { n with pendingSnapshot := none } cfg) :=
    Or.inr ⟨snapshot, beyond, present, fun sound => nomatch sound⟩
  have rest : Contiguous snapshot.lastIncludedIndex (n.logAfterSnapshotLocked snapshot) :=
    logAfterSnapshotLocked_contiguous wf.contiguous (by omega)
  have upholds := upholds_install wf newer
  have top : max n.commitIndex snapshot.lastIncludedIndex = snapshot.lastIncludedIndex :=
    max_eq_right newer.le
  have crash {after : Disk} (spared : Spared (some snapshot) after) : SparedBeyond saved after :=
    ⟨some snapshot, by simp only [Option.getD_some]; omega, spared⟩
  have file := retains.spared_newer newer
  have image := retains.spared_image newer rest
  have done : Retains
      (n.installed snapshot (n.logAfterSnapshotLocked snapshot) snapshot.lastIncludedIndex)
      (some snapshot)
      { hardState := some (n.hardState snapshot.lastIncludedIndex)
        wal := some (walImage snapshot.lastIncludedIndex snapshot.lastIncludedTerm
          (n.logAfterSnapshotLocked snapshot))
        snapshot := some snapshot }
      (n.installed snapshot (n.logAfterSnapshotLocked snapshot) snapshot.lastIncludedIndex) :=
    { upholds := .refl upholds.wellFormed
      boundary := rfl
      snapshot := rfl
      commit := le_rfl
      covers := Or.inl rfl
      records := fun _ _ => records_image rest }
  simp only [persistInstall, saveHardStateLocked, perform_bind, top]
  refine ⟨⟨⟨?_, fatal rfl, ?_⟩, fatal rfl, ?_⟩, Or.inl failed, ?_⟩
  · exact Or.inr ⟨snapshot, beyond, rfl, fun _ => ⟨retains.upholds.trans upholds, rfl, done⟩⟩
  · rintro (_ | _)
    · rw [store.torn_zero]
      exact crash image
    · exact crash done.spared
  · rintro (_ | _)
    · rw [store.torn_zero]
      exact crash file
    · exact crash image
  · rintro (_ | _)
    · rw [store.torn_zero]
      exact ⟨saved, le_rfl, retains.spared⟩
    · exact crash file

variable {req : InstallSnapshotRequest} {body : Bytes} {data : Option KVMap}

theorem finishInstall_retained (retains : Retains start saved disk n)
    (commit : n.commitIndex = start.commitIndex) :
    (n.finishInstall cfg req body data).wpFaulty store
      (fun r after => InstallRetains start saved after r.1) (SparedBeyond saved) disk := by
  unfold finishInstall
  simp only
  split
  · exact Or.inl (retains.same rfl rfl rfl rfl)
  · rename_i newer
    split
    · exact Or.inl (retains.same rfl rfl rfl rfl)
    split
    · have led : Retains start saved disk { n with leaderID := req.leaderID } :=
        retains.same rfl rfl rfl rfl
      exact persistInstall_retained led commit (Nat.lt_of_not_le newer)
    · exact Or.inl (retains.same rfl rfl rfl rfl)

theorem installDecoded_retained (retains : Retains n saved disk n) :
    (n.installDecoded cfg req body data).wpFaulty store
      (fun r after => InstallRetains n saved after r.1) (SparedBeyond saved) disk := by
  have cleared : InstallRetains n saved disk { n with pendingSnapshot := none } :=
    Or.inl (retains.same rfl rfl rfl rfl)
  unfold installDecoded
  simp only
  split
  · exact cleared
  split
  · exact cleared
  split
  · exact cleared
  split
  · apply wpFaulty_bind
    apply wpFaulty_crash
    · apply becomeFollowerLocked_retained retains
      · intro after kept
        exact finishInstall_retained kept (steppedDown_commitIndex n cfg req.term req.leaderID)
      · intro kept
        exact Or.inl (kept.same rfl rfl rfl rfl)
    · intro after spared
      exact ⟨saved, le_rfl, spared⟩
  · exact finishInstall_retained retains rfl

theorem applyDone_retained {entry : LogEntry} {result : ApplyResult}
    (retains : Retains start saved disk n) :
    Retains start saved disk (n.applyDone cfg entry result).1 := by
  rw [applyDone_eq]
  split
  · rename_i still
    exact retains.upheld (upholds_applied retains.wf still) rfl rfl
  · exact retains

theorem saveSnapshot_retained {snapshot : Snapshot} (retains : Retains n saved disk n)
    (worth : n.worthPersisting snapshot = true)
    (boundary : n.termAtLocked snapshot.lastIncludedIndex = some snapshot.lastIncludedTerm)
    (newer : (saved.getD {}).lastIncludedIndex ≤ snapshot.lastIncludedIndex) :
    (perform (StoreOp.saveSnapshot snapshot)).wpFaulty store
      (fun done after => Retains n (if done then some snapshot else saved) after n)
      (SparedBeyond saved) disk := by
  have kept : Retains n (some snapshot) { disk with snapshot := some snapshot } n :=
    { upholds := retains.upholds
      boundary := rfl
      snapshot := rfl
      commit := retains.commit
      covers := Or.inr ⟨worth, boundary⟩
      records := retains.records }
  refine ⟨kept, retains, ?_⟩
  rintro (_ | _)
  · rw [store.torn_zero]
    exact ⟨saved, le_rfl, retains.spared⟩
  · exact ⟨some snapshot, newer, kept.spared⟩

/-- The end of `persistSnapshot`: the WAL is rewritten under the snapshot that is already on disk,
and memory follows. -/
theorem compact_retained {snapshot : Snapshot} (retains : Retains n (some snapshot) disk n) :
    (n.compact snapshot).wpFaulty store
      (fun m after => n.Upholds m ∧ Retains m (some snapshot) after m) (Spared (some snapshot))
        disk := by
  unfold compact
  split
  · exact ⟨retains.upholds, retains⟩
  · rename_i worth
    simp only [Bool.not_eq_false] at worth
    have upholds := upholds_compact retains.wf worth
    have done : Retains (n.compacted snapshot) (some snapshot)
        (Disk.complete (.replaceEntries (n.compacted snapshot).log) disk) (n.compacted snapshot) :=
      { upholds := .refl upholds.wellFormed
        boundary := rfl
        snapshot := retains.snapshot
        commit := retains.commit
        covers := Or.inl rfl
        records := by
          intro data _
          simp only [Disk.complete, snapshotBaseLocked, retains.snapshot, Option.getD_some]
          exact records_image upholds.wellFormed.contiguous }
    refine ⟨⟨upholds, done⟩, ⟨retains.upholds, retains⟩, ?_⟩
    rintro (_ | _)
    · rw [store.torn_zero]
      exact retains.spared
    · exact done.spared

/-- `NewNode` on files whose log reaches the saved commit index. -/
theorem newNode_retained {loaded : Loaded} (loads : disk.load = .ok loaded)
    (covered : CommitCovered disk)
    (contiguous : Contiguous loaded.snapshot.lastIncludedIndex loaded.entries) :
    (newNode loaded).wpFaulty store
      (fun result after => Spared disk.snapshot after ∧
        ∀ m, result = some m → Retains m disk.snapshot after m)
      (Spared disk.snapshot) disk := by
  have wf := restored_wellFormed contiguous
  rcases Disk.load_records loads with ⟨current, saved, records⟩
  have reaches : loaded.hardState.commitIndex ≤ (restored loaded).commitIndex :=
    le_min (le_max_left _ _) (covered loaded loads)
  have restores {after : Disk} (file : after.snapshot = disk.snapshot)
      (state : after.hardState = disk.hardState)
      (written : Records after.wal loaded.snapshot loaded.entries) :
      Retains (restored loaded) disk.snapshot after (restored loaded) :=
    { upholds := .refl wf
      boundary := rfl
      snapshot := file
      commit := by
        rw [state, saved]
        exact reaches
      covers := Or.inl current
      records := fun _ _ => written }
  have finish {after : Disk} (kept : Retains (restored loaded) disk.snapshot after
      (restored loaded)) :
      (if loaded.hardState.commitIndex ≠ (restored loaded).commitIndex then do
        if ← (restored loaded).persistHardStateLocked then return some (restored loaded)
          else return none
      else return some (restored loaded) : Program StoreOp (Option Node)).wpFaulty store
      (fun result after => Spared disk.snapshot after ∧
        ∀ m, result = some m → Retains m disk.snapshot after m) (Spared disk.snapshot) after := by
    have up {final : Disk} (kept : Retains (restored loaded) disk.snapshot final
        (restored loaded)) :
        Spared disk.snapshot final ∧
          ∀ m, some (restored loaded) = some m → Retains m disk.snapshot final m := by
      refine ⟨kept.spared, ?_⟩
      rintro m ⟨⟩
      exact kept
    split
    · simp only [persistHardStateLocked, saveHardStateLocked, perform_bind]
      refine saveHardState_retained kept kept le_rfl (fun final done => up done) ⟨kept.spared, ?_⟩
      intro m absent
      cases absent
    · exact up kept
  unfold newNode
  cases rewrite : loaded.rewrite with
  | false =>
      simp only [Bool.false_eq_true, if_false, pure_eq, ret_bind]
      exact finish (restores rfl rfl (records rewrite))
  | true =>
      have kept : Retains (restored loaded) disk.snapshot
          { disk with
            wal := some (walImage loaded.snapshot.lastIncludedIndex loaded.snapshot.lastIncludedTerm
              loaded.entries) } (restored loaded) :=
        restores rfl rfl (records_image contiguous)
      simp only [if_true, perform_bind]
      refine ⟨finish kept, ⟨⟨rfl, covered⟩, ?_⟩, ?_⟩
      · intro m absent
        cases absent
      · rintro (_ | _)
        · rw [store.torn_zero]
          exact ⟨rfl, covered⟩
        · exact kept.spared

end Node

end GoRaftKV.Raft
