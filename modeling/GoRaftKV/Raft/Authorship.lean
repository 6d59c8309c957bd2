import GoRaftKV.Client.Kvctl
import GoRaftKV.Raft.Custody
import GoRaftKV.Raft.Executions

/-! Where the entries come from. Whatever fails, an entry that is anywhere in the cluster was
written for a command that a client had handed to a leader, or is the no-op of a new leader. -/

namespace GoRaftKV.Raft

open Storage Library Program

variable {good : LogEntry → Prop}

/-- All entries on the lines of the WAL and in the snapshot file are `good`. -/
structure Disk.Carries (good : LogEntry → Prop) (disk : Disk) : Prop where
  wal : ∀ entry ∈ walLines disk, good entry
  snapshot : ∀ entry ∈ (disk.snapshot.getD {}).history, good entry

def StoreOp.Carries (good : LogEntry → Prop) : StoreOp → Prop
  | .saveHardState _ => True
  | .appendEntries entries => ∀ entry ∈ entries, good entry
  | .replaceEntries entries => ∀ entry ∈ entries, good entry
  | .saveSnapshot snapshot => ∀ entry ∈ snapshot.history, good entry
  | .rewriteWAL _ _ entries => ∀ entry ∈ entries, good entry

namespace Disk.Carries

variable {disk : Disk}

theorem lines (carries : Disk.Carries good disk) {records : List WalRecord}
    (written : ∀ entry ∈ records.filterMap WalRecord.toEntry, good entry) :
    Disk.Carries good { disk with wal := some records } := ⟨written, carries.snapshot⟩

theorem longer (carries : Disk.Carries good disk) {records : List WalRecord}
    (written : ∀ entry ∈ records.filterMap WalRecord.toEntry, good entry) :
    Disk.Carries good { disk with wal := some (disk.wal.getD [] ++ records) } := by
  apply carries.lines
  intro entry member
  rw [List.filterMap_append] at member
  rcases List.mem_append.mp member with old | new
  · exact carries.wal entry old
  · exact written entry new

theorem complete (carries : Disk.Carries good disk) {op : StoreOp}
    (written : StoreOp.Carries good op) :
    Disk.Carries good (Disk.complete op disk) := by
  cases op with
  | saveHardState hs => exact ⟨carries.wal, carries.snapshot⟩
  | appendEntries entries =>
      simp only [Disk.complete]
      split
      · exact carries
      · apply carries.longer
        rw [appendedRecords_toEntry]
        exact written
  | replaceEntries entries =>
      apply carries.lines
      rw [walImage_toEntry]
      exact written
  | saveSnapshot snapshot => exact ⟨carries.wal, written⟩
  | rewriteWAL baseIndex baseTerm entries =>
      apply carries.lines
      rw [walImage_toEntry]
      exact written

theorem torn (carries : Disk.Carries good disk) {op : StoreOp} (written : StoreOp.Carries good op)
    (reached : Nat) :
    Disk.Carries good (Disk.torn op reached disk) := by
  cases reached with
  | zero =>
      have same : Disk.torn op 0 disk = disk := store.torn_zero op disk
      rw [same]
      exact carries
  | succ reached =>
      cases op with
      | appendEntries entries =>
          simp only [Disk.torn]
          split
          · exact carries
          · apply carries.longer
            rcases appendedRecords_take disk entries reached with ⟨count, arrived⟩
            rw [arrived]
            exact fun entry member => written entry (List.mem_of_mem_take member)
      | saveHardState hs => exact carries.complete written
      | replaceEntries entries => exact carries.complete written
      | saveSnapshot snapshot => exact carries.complete written
      | rewriteWAL baseIndex baseTerm entries => exact carries.complete written

theorem load (carries : Disk.Carries good disk) {loaded : Loaded} (loads : disk.load = .ok loaded) :
    (∀ entry ∈ loaded.entries, good entry) ∧ ∀ entry ∈ loaded.snapshot.history, good entry := by
  refine ⟨fun entry member => carries.wal entry ?_, ?_⟩
  · exact List.mem_filterMap.mpr ⟨.entry entry, Disk.load_recorded loads member, rfl⟩
  · rw [← (Disk.load_records loads).1]
    exact carries.snapshot

end Disk.Carries

def Node.inaugurates (n : Node) (term : Nat) : Bool :=
  n.stopped = false ∧ n.role = .candidate ∧ n.currentTerm = term

structure Node.Carries (good : LogEntry → Prop) (n : Node) : Prop where
  log : ∀ entry ∈ n.log, good entry
  snapshot : ∀ entry ∈ n.snapshot.history, good entry
  history : ∀ entry ∈ n.history, good entry

/-- A section that writes `good` entries only, in the files and in memory. -/
abbrev Node.Conveys {α : Type} (good : LogEntry → Prop) (memory : α → Node)
    (program : Program StoreOp α) : Prop :=
  program.Does (StoreOp.Carries good) fun value => (memory value).Carries good

namespace Node

variable {n m : Node} {cfg : Config}

theorem Carries.congr (carries : n.Carries good) (log : m.log = n.log)
    (snapshot : m.snapshot = n.snapshot) (history : m.history = n.history) : m.Carries good := by
  refine ⟨?_, ?_, ?_⟩
  · rw [log]
    exact carries.log
  · rw [snapshot]
    exact carries.snapshot
  · rw [history]
    exact carries.history

theorem Carries.append (carries : n.Carries good) {entries : List LogEntry}
    (new : ∀ entry ∈ entries, good entry) (log : m.log = n.log ++ entries)
    (snapshot : m.snapshot = n.snapshot) (history : m.history = n.history) :
    m.Carries good := by
  have longer : ({ n with log := n.log ++ entries } : Node).Carries good := by
    refine ⟨fun entry member => ?_, carries.snapshot, carries.history⟩
    rcases List.mem_append.mp member with old | appended
    · exact carries.log entry old
    · exact new entry appended
  exact longer.congr log snapshot history

theorem Carries.followerAt (carries : n.Carries good) (term : Nat) (leaderID : NodeId) :
    (n.followerAt term leaderID).Carries good := by
  rw [followerAt_eq]
  exact carries.congr rfl rfl rfl

theorem Carries.failed (carries : n.Carries good) : (n.failStorageLocked cfg).Carries good :=
  carries.congr rfl rfl rfl

theorem becomeFollowerLocked_carries {term : Nat} {leaderID : NodeId} (carries : n.Carries good) :
    Conveys good Prod.fst (n.becomeFollowerLocked cfg term leaderID) := by
  have down := carries.followerAt term leaderID
  simp only [becomeFollowerLocked, persistHardStateLocked, saveHardStateLocked, perform_bind,
    Conveys, does_call, if_true]
  refine ⟨trivial, ?_, down.failed⟩
  split
  · exact down.congr rfl rfl rfl
  · exact down

theorem castVote_carries (req : RequestVoteRequest) (carries : n.Carries good) :
    Conveys good Prod.fst (n.castVote req) := by
  unfold castVote
  split
  · simp only [persistHardStateLocked, saveHardStateLocked, perform_bind, Conveys, does_call]
    exact ⟨trivial, carries.congr rfl rfl rfl, carries⟩
  · exact carries

theorem handleRequestVote_carries (req : RequestVoteRequest) (carries : n.Carries good) :
    Conveys good Prod.fst (n.handleRequestVote cfg req) := by
  unfold handleRequestVote
  split
  · exact carries
  split
  · exact carries
  split
  · exact carries
  split
  · refine Does.bind ((becomeFollowerLocked_carries carries).mono ?_)
    rintro ⟨m, saved⟩ down
    simp only
    split
    · exact castVote_carries req down
    · exact down
  · exact castVote_carries req carries

section Merge

variable {entries : List LogEntry} (sent : ∀ entry ∈ entries, good entry)

include sent

theorem mergeLoop_carries (carries : n.Carries good) {result : MergeEntriesResult}
    (appended : ∀ entry ∈ result.appended, good entry) :
    (n.mergeLoop result entries).1.Carries good ∧ ∀ entry ∈ (n.mergeLoop result entries).2.appended,
      good entry := by
  have none : ∀ entry ∈ ([] : List LogEntry), good entry :=
    fun entry member => absurd member List.not_mem_nil
  induction entries generalizing n result with
  | nil => exact ⟨carries, appended⟩
  | cons head tail ih =>
      have first := sent head List.mem_cons_self
      have rest := fun entry member => sent entry (List.mem_cons_of_mem head member)
      unfold mergeLoop
      split
      · exact ih rest carries appended
      split
      · split
        · exact ih rest carries appended
        split
        · exact ⟨carries, none⟩
        · refine ⟨?_, none⟩
          have cut : (n.truncateFromLocked head.index).Carries good := by
            unfold truncateFromLocked
            split
            · exact ⟨none, carries.snapshot, carries.history⟩
            · exact ⟨fun entry member => carries.log entry (List.mem_of_mem_take member),
                carries.snapshot, carries.history⟩
          exact cut.append sent rfl rfl rfl
      split
      · exact ⟨carries, none⟩
      · have one : ∀ entry ∈ [head], good entry := by
          intro entry member
          rw [List.mem_singleton.mp member]
          exact first
        have longer : ({ n with log := n.log ++ [head] } : Node).Carries good :=
          carries.append one rfl rfl rfl
        refine ih rest longer ?_
        intro entry member
        rcases List.mem_append.mp member with old | new
        · exact appended entry old
        · exact one entry new

theorem mergeEntriesLocked_carries (carries : n.Carries good) (prevLogIndex : Nat) :
    (n.mergeEntriesLocked prevLogIndex entries).1.Carries good ∧
      ∀ entry ∈ (n.mergeEntriesLocked prevLogIndex entries).2.appended, good entry := by
  have none : ∀ entry ∈ ([] : List LogEntry), good entry :=
    fun entry member => absurd member List.not_mem_nil
  simp only [mergeEntriesLocked]
  split
  · exact ⟨carries, none⟩
  · exact mergeLoop_carries sent carries none

end Merge

theorem commitTo_carries (newCommit : Nat) (carries : n.Carries good) :
    Conveys good Prod.fst (n.commitTo newCommit) := by
  unfold commitTo
  split
  · simp only [persistHardStateLocked, saveHardStateLocked, perform_bind, Conveys, does_call]
    exact ⟨trivial, carries.congr rfl rfl rfl, carries⟩
  · exact carries

theorem spliceEntries_carries (req : AppendEntriesRequest)
    (sent : ∀ entry ∈ req.entries, good entry) (carries : n.Carries good) :
    Conveys good Prod.fst (n.spliceEntries cfg req) := by
  have merges := mergeEntriesLocked_carries sent carries req.prevLogIndex
  unfold spliceEntries
  generalize n.mergeEntriesLocked req.prevLogIndex req.entries = outcome at merges ⊢
  rcases outcome with ⟨merged, merge⟩
  rcases merges with ⟨memory, appended⟩
  have committed := commitTo_carries (min req.leaderCommit merge.lastNewIndex) memory
  simp only
  split
  · exact memory
  split
  · simp only [perform_bind, Conveys, does_call, if_true]
    refine ⟨?_, committed, ?_⟩
    · split
      · exact memory.log
      · exact appended
    · exact ⟨carries.log, memory.snapshot, memory.history⟩
  · exact committed

theorem matchEntries_carries (req : AppendEntriesRequest) (sent : ∀ entry ∈ req.entries, good entry)
    (carries : n.Carries good) : Conveys good Prod.fst (n.matchEntries cfg req) := by
  have led : ({ n with leaderID := req.leaderID } : Node).Carries good := carries.congr rfl rfl rfl
  unfold matchEntries
  simp only
  split
  · exact led
  split
  · exact led
  · exact spliceEntries_carries req sent led

theorem handleAppendEntries_carries (req : AppendEntriesRequest)
    (sent : ∀ entry ∈ req.entries, good entry) (carries : n.Carries good) :
    Conveys good Prod.fst (n.handleAppendEntries cfg req) := by
  unfold handleAppendEntries
  simp only
  split
  · exact carries
  split
  · exact carries
  split
  · exact carries
  split
  · refine Does.bind ((becomeFollowerLocked_carries carries).mono ?_)
    rintro ⟨m, saved⟩ down
    simp only
    split
    · exact matchEntries_carries req sent down
    · exact down
  · exact matchEntries_carries req sent carries

theorem collectChunk_carries (req : InstallSnapshotRequest) (carries : n.Carries good) :
    (n.collectChunk req).1.Carries good := by
  rcases collectChunk_eq n req with ⟨pending, same⟩
  rw [same]
  exact carries.congr rfl rfl rfl

theorem handleInstallSnapshot_carries (req : InstallSnapshotRequest) (carries : n.Carries good) :
    Conveys good Prod.fst (n.handleInstallSnapshot cfg req) := by
  unfold handleInstallSnapshot
  split
  · exact carries
  split
  · exact carries
  split
  · exact carries
  split
  · refine Does.bind ((becomeFollowerLocked_carries carries).mono ?_)
    rintro ⟨m, saved⟩ down
    simp only
    split
    · exact collectChunk_carries req down
    · exact down.congr rfl rfl rfl
  · exact collectChunk_carries req carries

theorem logAfterSnapshotLocked_carries (snapshot : Snapshot) (carries : n.Carries good) :
    ∀ entry ∈ n.logAfterSnapshotLocked snapshot, good entry := by
  unfold logAfterSnapshotLocked
  split
  · exact fun entry member => carries.log entry (List.mem_filter.mp member).1
  · exact fun entry member => absurd member List.not_mem_nil

theorem finishInstall_carries (req : InstallSnapshotRequest) (body : Bytes) (data : Option KVMap)
    (sent : ∀ entry ∈ req.history, good entry) (carries : n.Carries good) :
    Conveys good Prod.fst (n.finishInstall cfg req body data) := by
  have led : ({ n with leaderID := req.leaderID } : Node).Carries good := carries.congr rfl rfl rfl
  unfold finishInstall
  simp only
  split
  · exact carries.congr rfl rfl rfl
  split
  · exact led
  split
  · have rest (snapshot : Snapshot) := logAfterSnapshotLocked_carries snapshot led
    have failed : (failStorageLocked { n with leaderID := req.leaderID, pendingSnapshot := none }
      cfg).Carries good :=
      carries.congr rfl rfl rfl
    simp only [persistInstall, saveHardStateLocked, perform_bind, Conveys, does_call, if_true]
    exact ⟨sent, ⟨rest _, ⟨trivial, ⟨rest _, sent, sent⟩, failed⟩, failed⟩, failed⟩
  · exact led

theorem installDecoded_carries (req : InstallSnapshotRequest) (body : Bytes) (data : Option KVMap)
    (sent : ∀ entry ∈ req.history, good entry) (carries : n.Carries good) :
    Conveys good Prod.fst (n.installDecoded cfg req body data) := by
  have cleared : ({ n with pendingSnapshot := none } : Node).Carries good :=
    carries.congr rfl rfl rfl
  unfold installDecoded
  simp only
  split
  · exact cleared
  split
  · exact cleared
  split
  · exact cleared
  split
  · refine Does.bind ((becomeFollowerLocked_carries carries).mono ?_)
    rintro ⟨m, saved⟩ down
    simp only
    split
    · exact finishInstall_carries req body data sent down
    · exact down.congr rfl rfl rfl
  · exact finishInstall_carries req body data sent carries

theorem advanceCommitLocked_carries (carries : n.Carries good) :
    Conveys good id (n.advanceCommitLocked cfg) := by
  unfold advanceCommitLocked
  split
  · exact carries
  · simp only [persistHardStateLocked, saveHardStateLocked, perform_bind, Conveys, does_call]
    exact ⟨trivial, carries.congr rfl rfl rfl, carries.failed⟩

theorem proposeAppend_carries (command : Command) (chan : ChanId)
    (made : n.proposes = true → good (n.proposal command)) (carries : n.Carries good) :
    Conveys good Prod.fst (n.proposeAppend cfg command chan) := by
  unfold proposeAppend
  split
  · exact carries
  rename_i running
  split
  · exact carries
  rename_i sound
  split
  · exact carries
  rename_i leads
  push Not at leads
  have one : ∀ entry ∈ [n.proposal command], good entry := by
    intro entry member
    rw [List.mem_singleton.mp member]
    apply made
    simp [proposes, running, sound, leads]
  simp only [perform_bind, Conveys, does_call, if_true]
  refine ⟨one, Does.bind ?_, carries.failed⟩
  have longer : (n.accepted cfg (n.proposal command) chan).Carries good :=
    carries.append one rfl rfl rfl
  exact (advanceCommitLocked_carries longer).mono fun _ kept => kept

theorem startElection_carries (carries : n.Carries good) :
    Conveys good Prod.fst (n.startElection cfg) := by
  unfold startElection
  split
  · exact carries
  · simp only [persistHardStateLocked, saveHardStateLocked, perform_bind, Conveys, does_call]
    exact ⟨trivial, carries.congr rfl rfl rfl, carries.congr rfl rfl rfl⟩

theorem becomeLeader_carries (term : Nat)
    (made : n.inaugurates term = true → good (n.proposal { op := .noop }))
    (carries : n.Carries good) :
    Conveys good id (n.becomeLeader cfg term) := by
  unfold becomeLeader
  split
  · exact carries
  rename_i stands
  push Not at stands
  have one : ∀ entry ∈ [({ index := n.lastIndexLocked + 1, term := term,
                           command := { op := .noop } } : LogEntry)], good entry := by
    intro entry member
    rw [List.mem_singleton.mp member, ← stands.2.2]
    apply made
    simpa [inaugurates] using stands
  have led : (n.leading cfg).Carries good := carries.congr rfl rfl rfl
  simp only [perform_bind, Conveys, does_call, if_true]
  exact ⟨one, advanceCommitLocked_carries (led.append one rfl rfl rfl), led.failed⟩

theorem replicateReply_carries (peer : NodeId) (req : AppendEntriesRequest)
    (resp : AppendEntriesResponse) (carries : n.Carries good) :
    Conveys good Prod.fst (n.replicateReply cfg peer req resp) := by
  unfold replicateReply
  split
  · exact Does.bind ((becomeFollowerLocked_carries carries).mono fun _ down => down)
  split
  · exact carries
  split
  · have heard : (n.acknowledge peer (req.prevLogIndex + req.entries.length)).Carries good :=
      carries.congr rfl rfl rfl
    exact Does.bind ((advanceCommitLocked_carries heard).mono fun _ kept => kept)
  split
  · exact carries.congr rfl rfl rfl
  · exact carries

theorem sendSnapshotReply_carries (term : Nat) (resp : InstallSnapshotResponse)
    (carries : n.Carries good) :
    Conveys good Prod.fst (n.sendSnapshotReply cfg term resp) := by
  unfold sendSnapshotReply
  split
  · exact Does.bind ((becomeFollowerLocked_carries carries).mono fun _ down => down)
  · exact carries

theorem compact_carries {snapshot : Snapshot} (saved : ∀ entry ∈ snapshot.history, good entry)
    (carries : n.Carries good) : Conveys good id (n.compact snapshot) := by
  have rest : ∀ entry ∈ n.log.filter fun entry => snapshot.lastIncludedIndex < entry.index,
      good entry :=
    fun entry member => carries.log entry (List.mem_filter.mp member).1
  unfold compact
  split
  · exact carries
  · simp only [perform_bind, Conveys, does_call, if_true]
    exact ⟨rest, ⟨rest, saved, carries.history⟩, carries⟩

theorem Carries.applied (carries : n.Carries good) {entry : LogEntry} (ready : good entry) :
    (n.applyEntry entry).1.Carries good := by
  refine ⟨carries.log, carries.snapshot, fun other member => ?_⟩
  rcases List.mem_append.mp member with old | new
  · exact carries.history other old
  · rw [List.mem_singleton.mp new]
    exact ready

theorem Carries.quiet {action : Action} (carries : n.Carries good) (quiet : Quiet cfg n action m)
    (other : action ≠ .applyEntry) : m.Carries good := by
  cases quiet with
  | idle => exact carries
  | undecoded => exact carries.congr rfl rfl rfl
  | cancel index chan => exact carries.congr rfl rfl rfl
  | replicate peer =>
      rcases replicateToPeer_eq n cfg peer with ⟨⟨nextIndex, same⟩, -⟩
      rw [same]
      exact carries.congr rfl rfl rfl
  | snapshotSent peer term snapIdx =>
      unfold snapshotSent
      split
      · exact carries.congr rfl rfl rfl
      · exact carries
  | applyNext =>
      unfold applyNext
      split
      · exact carries
      split
      · exact carries.congr rfl rfl rfl
      · exact carries
  | applyEntry entry => exact absurd rfl other
  | applyDone entry result =>
      rw [applyDone_eq]
      split
      · exact carries.congr rfl rfl rfl
      · exact carries
  | stop =>
      unfold stop
      split
      · exact carries
      · exact carries.congr rfl rfl rfl

theorem applyNext_mem {entry : LogEntry} (found : n.applyNext.2 = some entry) : entry ∈ n.log := by
  unfold applyNext at found
  split at found
  · cases found
  split at found
  · cases found
  · unfold entryAtLocked at found
    split at found
    · cases found
    split at found
    · cases found
    · rename_i held
      split at found
      · cases found
        exact List.mem_of_getElem? held
      · cases found

theorem applyDone_history {entry : LogEntry} {result : ApplyResult} {snapshot : Snapshot}
    (taken : (n.applyDone cfg entry result).2 = some snapshot) : snapshot.history = n.history := by
  unfold applyDone at taken
  split at taken
  · cases taken
  simp only at taken
  split at taken
  · simp only [snapshotAtLocked, Option.map_eq_some_iff] at taken
    rcases taken with ⟨term, -, rfl⟩
    rfl
  · cases taken

theorem restored_carries {loaded : Loaded} (entries : ∀ entry ∈ loaded.entries, good entry)
    (history : ∀ entry ∈ loaded.snapshot.history, good entry) : (restored loaded).Carries good := by
  refine ⟨entries, history, fun entry member => ?_⟩
  rcases List.mem_append.mp member with old | replayed
  · exact history entry old
  · exact entries entry ((List.takeWhile_sublist _).subset replayed)

theorem newNode_carries {loaded : Loaded} (entries : ∀ entry ∈ loaded.entries, good entry)
    (history : ∀ entry ∈ loaded.snapshot.history, good entry) :
    (newNode loaded).Does (StoreOp.Carries good) fun result => ∀ n, result = some n →
      n.Carries good := by
  have fresh : ∀ n, some (restored loaded) = some n → n.Carries good := by
    rintro n ⟨⟩
    exact restored_carries entries history
  have failed : ∀ n : Node, none = some n → n.Carries good := by
    rintro n ⟨⟩
  have saved : (if loaded.hardState.commitIndex ≠ (restored loaded).commitIndex then
      (restored loaded).persistHardStateLocked >>= fun done =>
        if done = true then (pure (some (restored loaded)) : Program StoreOp (Option Node))
          else pure none
      else pure (some (restored loaded))).Does (StoreOp.Carries good)
        fun result => ∀ n, result = some n → n.Carries good := by
    split
    · simp only [persistHardStateLocked, saveHardStateLocked, perform_bind, does_call]
      exact ⟨trivial, fresh, failed⟩
    · exact fresh
  unfold newNode
  simp only
  split
  · simp only [perform_bind, does_call]
    exact ⟨entries, saved, failed⟩
  · exact saved

end Node

def PersistLock.Carries (good : LogEntry → Prop) : PersistLock → Prop
  | .free => True
  | .checked snapshot => ∀ entry ∈ snapshot.history, good entry
  | .saved snapshot => ∀ entry ∈ snapshot.history, good entry
  | .decoding _ req _ => ∀ entry ∈ req.history, good entry

structure Proc.Carries (good : LogEntry → Prop) (p : Proc) : Prop where
  node : p.node.Carries good
  applying : ∀ entry, p.applyMu.entry = some entry → good entry
  persisting : p.persistMu.Carries good
  captured : ∀ snapshot ∈ p.captured, ∀ entry ∈ snapshot.history, good entry

structure Host.Carries (good : LogEntry → Prop) (host : Host) : Prop where
  disk : Disk.Carries good host.disk
  proc : ∀ p, host.proc = some p → p.Carries good

/-- The entries that come with the section are `good`, and so is the entry that it makes. -/
def Action.Brings (good : LogEntry → Prop) (n : Node) : Action → Prop
  | .appendEntries req => ∀ entry ∈ req.entries, good entry
  | .installSnapshot _ req => ∀ entry ∈ req.history, good entry
  | .propose command => n.proposes = true → good (n.proposal command)
  | .becomeLeader term => n.inaugurates term = true → good (n.proposal { op := .noop })
  | _ => True

theorem Proc.Carries.withNode {p : Proc} {m : Node} (carries : p.Carries good)
    (node : m.Carries good) :
    Proc.Carries good { p with node := m } := { carries with node := node }

namespace Host

variable {cfg : Config} {codec : SnapshotCodec} {host : Host} {p : Proc} {fates : List Fate}
  {action : Action}

theorem run_carries {α : Type} {program : Program StoreOp α} {post : α → Prop}
    {finish : α → Host × Output} (disk : Disk.Carries good host.disk)
    (does : program.Does (StoreOp.Carries good) post)
    (finished : ∀ value, post value → ∀ q, (finish value).1.proc = some q → q.Carries good) :
    (host.run program fates finish).1.Carries good := by
  have meets : (program.exec store host.disk fates).Meets
      (fun value disk => post value ∧ Disk.Carries good disk) (Disk.Carries good) :=
    does.exec (fun _ _ written kept => kept.complete written)
      (fun _ reached _ written kept => kept.torn written reached) disk fates
  unfold run
  cases ending : program.exec store host.disk fates with
  | done value after =>
      rw [ending] at meets
      exact ⟨meets.2, finished value meets.1⟩
  | crashed after =>
      rw [ending] at meets
      refine ⟨meets, ?_⟩
      rintro q ⟨⟩

theorem run_conveys {α : Type} {program : Program StoreOp (Node × α)} (output : α → Output)
    (disk : Disk.Carries good host.disk) (carries : p.Carries good)
    (conveys : Node.Conveys good Prod.fst program) :
    (host.run program fates fun r => (host.withNode p r.1, output r.2)).1.Carries good := by
  refine run_carries disk conveys ?_
  rintro value kept q ⟨⟩
  exact carries.withNode kept

theorem Carries.withProc (carries : host.Carries good) {q : Proc} (kept : q.Carries good) :
    (host.withProc q).Carries good := by
  refine ⟨carries.disk, ?_⟩
  rintro p ⟨⟩
  exact kept

theorem Carries.quiet (cfg : Config) (carries : host.Carries good) (live : host.proc = some p)
    {m : Node} (quiet : Node.Quiet cfg p.node action m) (other : action ≠ .applyEntry) :
    (host.withNode p m).Carries good := by
  have held := carries.proc p live
  exact carries.withProc (held.withNode (held.node.quiet quiet other))

theorem Carries.running (carries : host.Carries good) (live : host.proc = some p)
    (brings : action.Brings good p.node) : (p.step cfg codec host fates action).1.Carries good := by
  have held := carries.proc p live
  have node := held.node
  cases action with
  | requestVote req =>
      exact run_conveys .vote carries.disk held (Node.handleRequestVote_carries req node)
  | appendEntries req =>
      exact run_conveys .append carries.disk held (Node.handleAppendEntries_carries req brings node)
  | installSnapshot call req =>
      simp only [Proc.step]
      split
      · refine run_carries carries.disk (Node.handleInstallSnapshot_carries req node) ?_
        rintro ⟨m, progress⟩ kept q alive
        cases progress <;> cases alive
        · exact held.withNode kept
        · exact { held with node := kept, persisting := brings }
      · exact carries
  | installDecoded =>
      simp only [Proc.step]
      split
      · rename_i call req body holds
        have sent : ∀ entry ∈ req.history, good entry := by
          have persisting := held.persisting
          rw [holds] at persisting
          exact persisting
        split
        · exact carries.withProc { held with node := node.congr rfl rfl rfl, persisting := trivial }
        · split
          · refine run_carries carries.disk (Node.installDecoded_carries req body _ sent node) ?_
            rintro ⟨m, resp⟩ kept q ⟨⟩
            exact { held with node := kept, persisting := trivial }
          · exact carries
      · exact carries
  | propose command =>
      refine run_carries carries.disk (Node.proposeAppend_carries command host.chans brings node) ?_
      rintro ⟨m, result⟩ kept q ⟨⟩
      exact held.withNode kept
  | cancel index chan => exact carries.quiet cfg live (.cancel index chan) (by simp)
  | startElection =>
      exact run_conveys .ofElection carries.disk held (Node.startElection_carries node)
  | becomeLeader term =>
      refine run_carries carries.disk (Node.becomeLeader_carries term brings node) ?_
      rintro m kept q ⟨⟩
      exact held.withNode kept
  | stepDown term leaderID =>
      exact run_conveys (fun _ => .nothing) carries.disk held
        (Node.becomeFollowerLocked_carries node)
  | replicate peer => exact carries.quiet cfg live (.replicate peer) (by simp)
  | replicateReply peer req resp =>
      exact run_conveys (.ofAttempt peer) carries.disk held
        (Node.replicateReply_carries peer req resp node)
  | snapshotReply term resp =>
      exact run_conveys (fun leads => .chunkAcked (leads && resp.success)) carries.disk held
        (Node.sendSnapshotReply_carries term resp node)
  | snapshotSent peer term snapIdx =>
      exact carries.quiet cfg live (.snapshotSent peer term snapIdx) (by simp)
  | applyNext =>
      simp only [Proc.step]
      split
      · have next : Node.Quiet cfg p.node .applyNext p.node.applyNext.1 := .applyNext
        have moved := node.quiet next (by simp)
        have taken : ∀ entry, p.node.applyNext.2 = some entry → good entry :=
          fun entry found => node.log entry (Node.applyNext_mem found)
        generalize p.node.applyNext = outcome at moved taken ⊢
        rcases outcome with ⟨m, next⟩
        cases next with
        | none => exact carries.withProc (held.withNode moved)
        | some entry =>
            refine carries.withProc { held with node := moved, applying := ?_ }
            rintro other ⟨⟩
            exact taken entry rfl
      · exact carries
  | applyEntry =>
      simp only [Proc.step]
      split
      · rename_i entry holds
        have ready : good entry := held.applying entry (by rw [holds]; rfl)
        refine carries.withProc { held with node := node.applied ready, applying := ?_ }
        rintro other ⟨⟩
        exact ready
      · exact carries
  | applyDone =>
      simp only [Proc.step]
      split
      · rename_i entry result holds
        have done : Node.Quiet cfg p.node .applyDone (p.node.applyDone cfg entry result).1 :=
          .applyDone entry result
        refine carries.withProc { held with node := node.quiet done (by simp), applying := ?_,
                                            captured := ?_ }
        · rintro other ⟨⟩
        · intro snapshot member
          rcases List.mem_append.mp member with old | new
          · exact held.captured snapshot old
          · rw [Node.applyDone_history (Option.mem_toList.mp new)]
            exact node.history
      · exact carries
  | persistCheck position =>
      simp only [Proc.step]
      split
      · rename_i snapshot free found
        have fewer : ∀ other ∈ p.captured.eraseIdx position, ∀ entry ∈ other.history, good entry :=
          fun other member => held.captured other (List.mem_of_mem_eraseIdx member)
        split
        · exact carries.withProc
            { held with captured := fewer,
                        persisting := held.captured snapshot (List.mem_of_getElem? found) }
        · exact carries.withProc { held with captured := fewer }
      · exact carries
  | persistSave =>
      simp only [Proc.step]
      split
      · rename_i snapshot holds
        have ready : ∀ entry ∈ snapshot.history, good entry := by
          have persisting := held.persisting
          rw [holds] at persisting
          exact persisting
        have saves : (perform (StoreOp.saveSnapshot snapshot)).Does (StoreOp.Carries good) fun _ =>
            True :=
          ⟨ready, fun _ => trivial⟩
        refine run_carries carries.disk saves ?_
        rintro saved - q ⟨⟩
        refine { held with persisting := ?_ }
        simp only
        split
        · exact ready
        · trivial
      · exact carries
  | persistEnd =>
      simp only [Proc.step]
      split
      · rename_i snapshot holds
        have ready : ∀ entry ∈ snapshot.history, good entry := by
          have persisting := held.persisting
          rw [holds] at persisting
          exact persisting
        refine run_carries carries.disk (Node.compact_carries ready node) ?_
        rintro m kept q ⟨⟩
        exact { held with node := kept, persisting := trivial }
      · exact carries
  | stop => exact carries.quiet cfg live .stop (by simp)
  | crash =>
      refine ⟨carries.disk, ?_⟩
      rintro q ⟨⟩
  | restart => exact carries

theorem Carries.step (carries : host.Carries good)
    (brings : ∀ p, host.proc = some p → action.Brings good p.node) :
    (host.step cfg codec fates action).1.Carries good := by
  unfold Host.step
  split
  · rename_i p live
    exact carries.running live (brings p live)
  · split
    · rename_i loaded loads
      rcases carries.disk.load loads with ⟨entries, history⟩
      refine run_carries carries.disk (Node.newNode_carries entries history) ?_
      intro result fresh q alive
      simp only [Option.map_eq_some_iff] at alive
      rcases alive with ⟨n, built, rfl⟩
      refine ⟨fresh n built, ?_, trivial, ?_⟩
      · rintro entry ⟨⟩
      · exact fun snapshot member => absurd member List.not_mem_nil
    · exact carries

end Host

def Request.Carries (good : LogEntry → Prop) : Request → Prop
  | .vote _ => True
  | .append req => ∀ entry ∈ req.entries, good entry
  | .snapshot req => ∀ entry ∈ req.history, good entry

def carried (good : LogEntry → Prop) : Ledger where
  call call := call.request.Carries good
  reply _ _ := True
  campaign _ := True
  stream stream := ∀ entry ∈ stream.snapshot.history, good entry

namespace Cluster

variable {setting : Setting} {allowed : Cluster → Event → Prop} {w next : Cluster} {event : Event}
  {task : Task}

/-- The entry that the event has its section write, if it has it write one at all. -/
def makes (w : Cluster) : Event → Option LogEntry
  | .propose id command _ =>
      (w.hosts id).proc.bind fun p => if p.node.proposes then some (p.node.proposal command)
      else none
  | .win number _ =>
      (w.campaigns[number]?).bind fun campaign =>
        (w.hosts campaign.node).proc.bind fun p =>
          if p.node.inaugurates campaign.request.term then some (p.node.proposal { op := .noop })
            else none
  | _ => none

structure Carries (good : LogEntry → Prop) (w : Cluster) : Prop where
  filed : w.Filed
  hosts : ∀ id, (w.hosts id).Carries good
  ledger : (carried good).Holds w

theorem server_authors (ran : w.server setting event = some task) :
    (∃ id command fates, event = .propose id command fates ∧
      task = ⟨id, .propose command, fates, 0⟩) ∨
    (∃ number campaign fates, event = .win number fates ∧ w.campaigns[number]? = some campaign ∧
      task = ⟨campaign.node, .becomeLeader campaign.request.term, fates, 0⟩) ∨
    ((∀ command, task.action ≠ .propose command) ∧ ∀ term, task.action ≠ .becomeLeader term) := by
  unfold server at ran
  split at ran
  case h_1 id action fates =>
    split at ran
    · cases ran
      rename_i own
      refine Or.inr (Or.inr ⟨?_, ?_⟩)
      · rintro command rfl
        cases own
      · rintro term rfl
        cases own
    · cases ran
  case h_2 id command fates =>
    cases ran
    exact Or.inl ⟨id, command, fates, rfl, rfl⟩
  case h_3 id chan =>
    simp only [Option.map_eq_some_iff] at ran
    rcases ran with ⟨⟨n, entry⟩, -, rfl⟩
    simp
  case h_4 id fates =>
    cases ran
    simp
  case h_5 number fates =>
    split at ran
    · rename_i campaign found
      split at ran
      · cases ran
        exact Or.inr (Or.inl ⟨number, campaign, fates, rfl, found, rfl⟩)
      · cases ran
    · cases ran
  case h_6 id peer =>
    split at ran
    · cases ran
      simp
    · cases ran
  case h_7 number fates =>
    split at ran
    · rename_i call found
      cases ran
      cases request : call.request <;> simp [Request.action]
    · cases ran
  case h_8 number fates =>
    split at ran
    · split at ran
      · simp only [Option.map_eq_some_iff] at ran
        rcases ran with ⟨action, answers, rfl⟩
        simp only [Call.replied] at answers
        split at answers
        · split at answers <;> cases answers
          simp
        · cases answers
          simp
        · cases answers
          simp
        · cases answers
      · cases ran
    · cases ran
  case h_9 number =>
    split at ran
    · split at ran
      · cases ran
        simp
      · cases ran
    · cases ran
  case h_10 => cases ran

theorem server_brings (carries : w.Carries good) (ran : w.server setting event = some task)
    (made : ∀ entry, w.makes event = some entry → good entry) {p : Proc}
    (live : (w.hosts task.node).proc = some p) : task.action.Brings good p.node := by
  have asked := server_asked ran
  cases action : task.action with
  | appendEntries req =>
      simp only [Asked, action] at asked
      rcases asked with ⟨sender, issued, found⟩
      exact carries.ledger.calls _ (List.mem_of_getElem? found)
  | installSnapshot call req =>
      simp only [Asked, action] at asked
      rcases asked with ⟨-, sender, issued, found⟩
      exact carries.ledger.calls _ (List.mem_of_getElem? found)
  | propose command =>
      rcases server_authors ran with
        ⟨id, proposed, fates, rfl, rfl⟩ | ⟨number, campaign, fates, -, -, rfl⟩ | ⟨other, -⟩
      · cases action
        intro proposes
        apply made
        simp only [makes, live, Option.bind_some, proposes, if_true]
      · cases action
      · exact absurd action (other command)
  | becomeLeader term =>
      rcases server_authors ran with
        ⟨id, proposed, fates, -, rfl⟩ | ⟨number, campaign, fates, rfl, found, rfl⟩ | ⟨-, other⟩
      · cases action
      · cases action
        intro inaugurates
        apply made
        simp only [makes, found, Option.bind_some, live, inaugurates, if_true]
      · exact absurd action (other term)
  | _ => trivial

theorem Carries.admits (carries : w.Carries good) (ran : w.server setting event = some task) :
    (carried good).Admits w task (w.outcome setting task).2 where
  replied := by
  -- What a section sends comes from its own memory.
    intro number resp output
    rcases carries.filed.replied (server_asked ran) output with ⟨call, found, -⟩
    exact ⟨call, found, trivial⟩
  stood := fun _ _ => trivial
  appended := by
    intro peer req issued output
    rcases Host.step_dispatch output with ⟨p, live, -, sent⟩
    have node := ((carries.hosts task.node).proc p live).node
    change ∀ entry ∈ req.entries, good entry
    rw [sent.2.2.2]
    exact fun entry member => node.log entry (List.mem_filter.mp member).1
  streamed := by
    intro peer term snapshot chunkSize output
    rcases Host.step_dispatch output with ⟨p, live, -, -, -, rfl, -⟩
    exact ((carries.hosts task.node).proc p live).node.snapshot

theorem Carries.step (carries : w.Carries good) (taken : w.step setting event = some next)
    (made : ∀ entry, w.makes event = some entry → good entry) : next.Carries good where
  filed := carries.filed.step taken
  hosts := by
    intro id
    rcases step_host taken id with same | ⟨task, ran, rfl, -, stepped⟩
    · rw [same]
      exact carries.hosts id
    · rw [stepped]
      exact (carries.hosts task.node).step fun p live => server_brings carries ran made live
  ledger := by
    refine carries.ledger.step taken (fun task ran _ => carries.admits ran) ?_ ?_
    · exact fun _ _ _ _ _ => trivial
    · exact fun _ _ _ streamed _ => streamed

theorem carries_initial : initial.Carries good where
  filed := by
    rintro id p number req body ⟨⟩
  hosts := by
    intro id
    refine ⟨⟨?_, ?_⟩, ?_⟩
    · exact fun entry member => absurd member List.not_mem_nil
    · exact fun entry member => absurd member List.not_mem_nil
    · rintro p ⟨⟩
  ledger := ⟨by simp [initial], by simp [initial], by simp [initial], by simp [initial]⟩

end Cluster

def Host.Has (host : Host) (entry : LogEntry) : Prop :=
  entry ∈ walLines host.disk ∨ entry ∈ (host.disk.snapshot.getD {}).history ∨
    ∃ p, host.proc = some p ∧ (entry ∈ p.node.fullLog ∨ entry ∈ p.node.history)

theorem Host.Carries.has {host : Host} (carries : host.Carries good) {entry : LogEntry}
    (has : host.Has entry) :
    good entry := by
  rcases has with line | folded | ⟨p, live, logged | applied⟩
  · exact carries.disk.wal entry line
  · exact carries.disk.snapshot entry folded
  · have node := (carries.proc p live).node
    rcases List.mem_append.mp logged with compacted | kept
    · exact node.snapshot entry compacted
    · exact node.log entry kept
  · exact (carries.proc p live).node.history entry applied

/-- A client hands `entry.command` to the leader `p`, which makes the next entry of its log and
term of it. -/
def Cluster.Proposes (w : Cluster) (event : Event) (entry : LogEntry) : Prop :=
  ∃ author p fates, event = .propose author entry.command fates ∧ (w.hosts author).proc = some p ∧
    p.node.proposes = true ∧ entry = p.node.proposal entry.command

/-- The candidate `p` has won its election and makes the next entry of its log and term a no-op. -/
def Cluster.Inaugurates (w : Cluster) (event : Event) (entry : LogEntry) : Prop :=
  ∃ author p number request fates, event = .win number fates ∧
    w.campaigns[number]? = some ⟨author, request⟩ ∧ (w.hosts author).proc = some p ∧
      p.node.inaugurates request.term = true ∧ entry = p.node.proposal { op := .noop }

theorem Cluster.makes_cases {w : Cluster} {event : Event} {entry : LogEntry}
    (made : w.makes event = some entry) :
    w.Proposes event entry ∨ w.Inaugurates event entry := by
  cases event with
  | propose id command fates =>
      simp only [makes, Option.bind_eq_some_iff, Option.ite_none_right_eq_some] at made
      rcases made with ⟨p, live, proposes, same⟩
      cases same
      exact Or.inl ⟨id, p, fates, rfl, live, proposes, rfl⟩
  | win number fates =>
      simp only [makes, Option.bind_eq_some_iff, Option.ite_none_right_eq_some] at made
      rcases made with ⟨⟨author, request⟩, found, p, live, inaugurates, same⟩
      cases same
      exact Or.inr ⟨author, p, number, request, fates, rfl, found, live, inaugurates, rfl⟩
  | _ => cases made

namespace Execution

variable {setting : Setting} {allowed : Cluster → Event → Prop}
  (execution : Execution setting allowed) {time : Nat}

/-- The entry was made by one of the first `time` events. -/
def Authored (time : Nat) (entry : LogEntry) : Prop :=
  ∃ earlier < time, (execution.states earlier).makes (execution.events earlier) = some entry

theorem carries (bound : time ≤ execution.length) :
    (execution.states time).Carries (execution.Authored time) := by
  have each : ∀ early ≤ time, (execution.states early).Carries (execution.Authored time) := by
    intro early order
    induction early with
    | zero =>
        rw [execution.begun]
        exact Cluster.carries_initial
    | succ early ih =>
        have before : early < time := order
        exact (ih before.le).step (execution.taken early (before.trans_le bound))
          fun entry made => ⟨early, before, made⟩
  exact each time le_rfl

/-- In every execution, whichever store calls fail and wherever machines crash: an entry that is on
a machine was made before, for a command that a client had handed to a leader, or as the no-op of a
new leader. -/
theorem entry_authored (execution : Execution setting allowed) {time : Nat}
    (bound : time ≤ execution.length) {id : NodeId} {entry : LogEntry}
    (has : ((execution.states time).hosts id).Has entry) :
    ∃ earlier < time, (execution.states earlier).Proposes (execution.events earlier) entry ∨
      (execution.states earlier).Inaugurates (execution.events earlier) entry := by
  rcases ((execution.carries bound).hosts id).has has with ⟨earlier, before, made⟩
  exact ⟨earlier, before, Cluster.makes_cases made⟩

/-- The leader `a` crashes after the line of the proposed entry has reached its WAL. -/
def tearing : List Event :=
  [.local "a" .restart [], .local "b" .restart [], .local "c" .restart [],
   .campaign "a" [], .solicit 0 "b", .deliver 0 [], .win 0 [],
   .propose "a" { op := .put, key := "k", value := "v" } [.crash 2]]

def tornEntry : LogEntry :=
  { index := 2, term := 1, command := { op := .put, key := "k", value := "v" } }

def leftBehind (w : Cluster) : Bool :=
  w.proposals.isEmpty && (walLines (w.hosts "a").disk).contains tornEntry

theorem tearing_plays :
    (Cluster.play trioSetting (fun _ _ => True) .initial tearing).isSome = true := by
  decide +kernel

def tornRun : Execution trioSetting fun _ _ => True :=
  Cluster.execution trioSetting (fun _ _ => True) tearing tearing_plays

theorem entry_authored_torn : (tornRun.states tornRun.length).proposals = [] ∧
    ((tornRun.states tornRun.length).hosts "a").Has tornEntry ∧
    ∃ earlier < tornRun.length,
      (tornRun.states earlier).Proposes (tornRun.events earlier) tornEntry ∨
      (tornRun.states earlier).Inaugurates (tornRun.events earlier) tornEntry := by
  have left : leftBehind (tornRun.states tornRun.length) = true := by decide +kernel
  simp only [leftBehind, Bool.and_eq_true, List.isEmpty_iff, List.contains_iff_mem] at left
  exact ⟨left.1, Or.inl left.2, entry_authored tornRun le_rfl (Or.inl left.2)⟩

end Execution

end GoRaftKV.Raft
