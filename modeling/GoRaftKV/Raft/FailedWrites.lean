import GoRaftKV.Raft.FailClosed

/-! What a call to the store that reports an error leaves behind in memory. -/

namespace GoRaftKV.Storage

abbrev Calls := List (StoreOp × Bool)

def StoreOp.writesLog : StoreOp → Bool
  | .saveHardState _ => false
  | _ => true

/-- The term and the vote of the last hard state that the store has accepted. -/
def lastSaved (stance : Nat × String) : Calls → Nat × String
  | [] => stance
  | (.saveHardState hs, true) :: calls => lastSaved (hs.currentTerm, hs.votedFor) calls
  | _ :: calls => lastSaved stance calls

def writtenLog (log : List LogEntry) : Calls → List LogEntry
  | [] => log
  | (.appendEntries entries, true) :: calls => writtenLog (log ++ entries) calls
  | (.replaceEntries entries, true) :: calls => writtenLog entries calls
  | _ :: calls => writtenLog log calls

theorem lastSaved_append (stance : Nat × String) (first second : Calls) :
    lastSaved stance (first ++ second) = lastSaved (lastSaved stance first) second := by
  fun_induction lastSaved stance first with
  | case1 => rfl
  | case2 stance hs calls ih =>
      rw [List.cons_append, lastSaved, ih]
  | case3 stance call calls other ih =>
      rw [List.cons_append, lastSaved, ih]
      exact other

theorem writtenLog_saves {first : Calls}
    (saves : ∀ call ∈ first, ∃ hs, call = (.saveHardState hs, true)) (log : List LogEntry)
    (second : Calls) : writtenLog log (first ++ second) = writtenLog log second := by
  induction first with
  | nil => rfl
  | cons call first ih =>
      obtain ⟨hs, rfl⟩ := saves call List.mem_cons_self
      exact ih fun other member => saves other (List.mem_cons_of_mem _ member)

end GoRaftKV.Storage

namespace GoRaftKV.Raft

open Storage Library Program

namespace Node

def stance (n : Node) : Nat × String := (n.currentTerm, n.votedFor)

/-- Nothing has been applied, committed, logged or promised. -/
structure Unmoved (n m : Node) : Prop where
  applied : m.lastApplied = n.lastApplied
  machine : m.sm = n.sm
  snapshot : m.snapshot = n.snapshot
  commit : m.commitIndex = n.commitIndex
  log : m.log = n.log
  waiters : m.waiters ⊆ n.waiters

/-- A step-down to a higher term that could not be saved. -/
structure Deposed (stance : Nat × String) (op : StoreOp) (m : Node) : Prop where
  higher : stance.1 < m.currentTerm
  unvoted : m.votedFor = ""
  fatal : m.storageFatal = true
  saving : ∃ hs, op = .saveHardState hs ∧ hs.currentTerm = m.currentTerm ∧ hs.votedFor = ""

/-- What is left of `n` in `m` when the call of `op` has failed. -/
structure Untouched (n : Node) (calls : Calls) (op : StoreOp) (m : Node) : Prop where
  applied : m.lastApplied = n.lastApplied
  machine : m.sm = n.sm
  snapshot : m.snapshot = n.snapshot
  commit : m.commitIndex = n.commitIndex
  waiters : m.waiters ⊆ n.waiters
  log : op.writesLog = true → m.log = n.log
  extended : (∀ snapshot, (.saveSnapshot snapshot, true) ∉ calls) → m.log = writtenLog n.log calls
  installing : ∀ snapshot, (.saveSnapshot snapshot, true) ∈ calls →
    m.log = n.log ∧ ∀ entries, (.replaceEntries entries, true) ∈ calls → entries ⊆ n.log
  stance : m.stance = lastSaved n.stance calls ∨ Deposed (lastSaved n.stance calls) op m

/-- A section that has made `calls` and ends in `m`. Only the channels in `fresh` may have been
added to the waiters, and `granted` says whether the section has answered with a grant. -/
structure Settled (fresh : List ChanId) (n : Node) (calls : Calls) (granted : Bool) (m : Node) :
    Prop where
  waiters : ∀ waiter ∈ m.waiters, waiter ∈ n.waiters ∨ waiter.2 ∈ fresh
  stays : n.storageFatal = true → m.storageFatal = true
  synced : m.storageFatal = false → m.stance = lastSaved n.stance calls
  failed : ∀ op, (op, false) ∈ calls → granted = false ∧ Untouched n calls op m

variable {cfg : Config} {fresh : List ChanId} {n m k : Node} {calls first second : Calls}
  {op : StoreOp} {granted : Bool}

theorem Settled.success (successes : ∀ call ∈ calls, call.2 = true)
    (stance : m.stance = lastSaved n.stance calls) (fatal : m.storageFatal = n.storageFatal)
    (waiters : m.waiters ⊆ n.waiters) : Settled fresh n calls granted m where
  waiters := fun _ member => Or.inl (waiters member)
  stays := fun failed => fatal.trans failed
  synced := fun _ => stance
  failed := fun _ member => nomatch successes _ member

theorem Settled.quiet (stance : m.stance = n.stance) (fatal : m.storageFatal = n.storageFatal)
    (waiters : m.waiters ⊆ n.waiters) : Settled fresh n [] granted m :=
  .success (by simp) stance fatal waiters

theorem Unmoved.refl (n : Node) : Unmoved n n := ⟨rfl, rfl, rfl, rfl, rfl, fun _ member => member⟩

theorem Unmoved.trans (first : Unmoved n m) (second : Unmoved m k) : Unmoved n k where
  applied := second.applied.trans first.applied
  machine := second.machine.trans first.machine
  snapshot := second.snapshot.trans first.snapshot
  commit := second.commit.trans first.commit
  log := second.log.trans first.log
  waiters := fun _ member => first.waiters (second.waiters member)

theorem Settled.failure (unmoved : Unmoved n m)
    (fatal : n.storageFatal = true → m.storageFatal = true)
    (stance : m.stance = n.stance ∨ Deposed n.stance op m) :
    Settled fresh n [(op, false)] false m where
  waiters := fun waiter member => Or.inl (unmoved.waiters member)
  stays := fatal
  synced := by
    intro usable
    have same : lastSaved n.stance [(op, false)] = n.stance := by cases op <;> rfl
    rw [same]
    rcases stance with same | deposed
    · exact same
    · rw [deposed.fatal] at usable
      cases usable
  failed := by
    intro other member
    rw [List.mem_singleton] at member
    cases member
    have saved : lastSaved n.stance [(op, false)] = n.stance := by cases op <;> rfl
    have written : writtenLog n.log [(op, false)] = n.log := by cases op <;> rfl
    exact ⟨rfl, unmoved.applied, unmoved.machine, unmoved.snapshot, unmoved.commit, unmoved.waiters,
      fun _ => unmoved.log,
        fun _ => by rw [written, unmoved.log], fun _ member => by simp at member,
      by rwa [saved]⟩

/-- The hard states saved at the start of a section, which moves nothing else. -/
structure Prelude (n : Node) (calls : Calls) (m : Node) : Prop where
  saves : ∀ call ∈ calls, ∃ hs, call = (.saveHardState hs, true)
  unmoved : Unmoved n m
  stance : m.stance = lastSaved n.stance calls
  fatal : m.storageFatal = n.storageFatal

theorem Untouched.after (prelude : Prelude n first m) (untouched : Untouched m second op k) :
    Untouched n (first ++ second) op k := by
  have unsaved : ∀ op answer, op.writesLog = true → (op, answer) ∈ first ++ second →
      (op, answer) ∈ second := by
    intro op answer writes member
    rcases List.mem_append.mp member with early | late
    · obtain ⟨hs, same⟩ := prelude.saves _ early
      cases same
      cases writes
    · exact late
  have log := prelude.unmoved.log
  refine ⟨untouched.applied.trans prelude.unmoved.applied,
    untouched.machine.trans prelude.unmoved.machine,
      untouched.snapshot.trans prelude.unmoved.snapshot,
      untouched.commit.trans prelude.unmoved.commit,
    fun _ member => prelude.unmoved.waiters (untouched.waiters member),
    fun writes => (untouched.log writes).trans log, ?_, ?_, ?_⟩
  · intro none
    rw [writtenLog_saves prelude.saves, ← log]
    exact untouched.extended fun snapshot member => none snapshot (List.mem_append_right _ member)
  · intro snapshot member
    rw [← log]
    obtain ⟨same, written⟩ := untouched.installing snapshot (unsaved _ _ rfl member)
    exact ⟨same, fun entries member => written entries (unsaved _ _ rfl member)⟩
  · rw [lastSaved_append, ← prelude.stance]
    exact untouched.stance

theorem Prelude.settled (prelude : Prelude n first m) (settled : Settled fresh m second granted k) :
    Settled fresh n (first ++ second) granted k where
  waiters :=
    fun waiter member => (settled.waiters waiter member).imp_left (prelude.unmoved.waiters ·)
  stays := fun failed => settled.stays (prelude.fatal.trans failed)
  synced := by
    intro usable
    rw [lastSaved_append, ← prelude.stance]
    exact settled.synced usable
  failed := by
    intro op member
    have late : (op, false) ∈ second := by
      rcases List.mem_append.mp member with early | late
      · obtain ⟨hs, same⟩ := prelude.saves _ early
        cases same
      · exact late
    exact ⟨(settled.failed op late).1, .after prelude (settled.failed op late).2⟩

theorem Prelude.traces {α : Type} {program : Program StoreOp α} {grants : α → Bool}
    {memory : α → Node} (prelude : Prelude n first m)
    (every : program.Traces fun calls value =>
      Settled fresh m calls (grants value) (memory value)) :
    program.Traces fun calls value =>
      Settled fresh n (first ++ calls) (grants value) (memory value) :=
  every.mono fun _ _ settled => prelude.settled settled

/-! ### Step-downs -/

theorem becomeFollowerLocked_traces {term : Nat} {leaderID : NodeId}
    {post : Calls → Node × Bool → Prop}
    (success : post [(.saveHardState (n.followerAt term leaderID).vote, true)]
      (n.steppedDown cfg term leaderID, true))
    (failure : post [(.saveHardState (n.followerAt term leaderID).vote, false)]
      ((n.followerAt term leaderID).failStorageLocked cfg, false)) :
    (n.becomeFollowerLocked cfg term leaderID).Traces post := by
  unfold steppedDown at success
  simp only [becomeFollowerLocked, persistHardStateLocked, saveHardStateLocked, perform_bind,
    traces_call]
  refine ⟨?_, failure⟩
  simp only [if_true]
  split <;> rename_i role
  · rwa [if_pos role] at success
  · rwa [if_neg role] at success

theorem resolveWaiters_unmoved (n : Node) (choose : Nat → Bool) (outcome : ApplyOutcome) :
    Unmoved n (n.resolveWaiters choose outcome) :=
  ⟨rfl, rfl, rfl, rfl, rfl, List.filter_subset_self _⟩

theorem failStorageLocked_unmoved (n : Node) (cfg : Config) : Unmoved n (n.failStorageLocked cfg) :=
  ⟨rfl, rfl, rfl, rfl, rfl, List.filter_subset_self _⟩

theorem followerAt_unmoved (n : Node) (term : Nat) (leaderID : NodeId) :
    Unmoved n (n.followerAt term leaderID) := by
  rw [followerAt_eq]
  exact ⟨rfl, rfl, rfl, rfl, rfl, fun _ member => member⟩

theorem steppedDown_prelude (n : Node) (cfg : Config) (term : Nat) (leaderID : NodeId) :
    Prelude n [(.saveHardState (n.followerAt term leaderID).vote, true)]
      (n.steppedDown cfg term leaderID) := by
  have follower := followerAt_unmoved n term leaderID
  refine ⟨by simp, ?_, ?_, ?_⟩
  · unfold steppedDown
    split
    · exact follower.trans (resolveWaiters_unmoved _ _ _)
    · exact follower
  · unfold steppedDown
    split <;> rfl
  · rw [steppedDown, followerAt_eq]
    split <;> rfl

theorem fallen_settled (n : Node) (term : Nat) (leaderID : NodeId) :
    Settled fresh n [(.saveHardState (n.followerAt term leaderID).vote, false)] false
      ((n.followerAt term leaderID).failStorageLocked cfg) := by
  have unmoved := (followerAt_unmoved n term leaderID).trans
    (failStorageLocked_unmoved (n.followerAt term leaderID) cfg)
  refine .failure unmoved (fun _ => rfl) ?_
  by_cases higher : n.currentTerm < term
  · have follower : n.followerAt term leaderID = { n with
        currentTerm := term, votedFor := "", role := .follower
        leaderID := leaderID, leaderNoopIndex := 0 } := by
      simp [followerAt, higher]
    rw [follower]
    exact Or.inr ⟨higher, rfl, rfl, _, rfl, rfl, rfl⟩
  · have follower : n.followerAt term leaderID = { n with
        role := .follower, leaderID := leaderID, leaderNoopIndex := 0 } := by
      simp [followerAt, higher]
    rw [follower]
    exact Or.inl rfl

theorem stepDown_traces {α : Type} {term : Nat} {leaderID : NodeId}
    {rest : Node × Bool → Program StoreOp α} {grants : α → Bool} {memory : α → Node}
    (success : (rest (n.steppedDown cfg term leaderID, true)).Traces fun calls value =>
      Settled fresh (n.steppedDown cfg term leaderID) calls (grants value) (memory value))
    (failure : ∃ value, rest ((n.followerAt term leaderID).failStorageLocked cfg, false) =
      ret value ∧ grants value = false ∧
        (memory value = (n.followerAt term leaderID).failStorageLocked cfg ∨ memory value =
          { (n.followerAt term leaderID).failStorageLocked cfg with pendingSnapshot := none })) :
    (n.becomeFollowerLocked cfg term leaderID >>= rest).Traces fun calls value =>
      Settled fresh n calls (grants value) (memory value) := by
  refine Traces.bind (becomeFollowerLocked_traces ?_ ?_)
  · exact (steppedDown_prelude n cfg term leaderID).traces success
  · obtain ⟨value, ends, refused, fallen⟩ := failure
    have settled : Settled fresh n [(.saveHardState (n.followerAt term leaderID).vote, false)] false
        ((n.followerAt term leaderID).failStorageLocked cfg) := fallen_settled n term leaderID
    rw [ends, traces_ret, refused, List.append_nil]
    rcases fallen with same | same <;> rw [same]
    · exact settled
    · refine ⟨settled.waiters, settled.stays, settled.synced, fun op member => ⟨rfl, ?_⟩⟩
      have untouched := (settled.failed op member).2
      exact ⟨untouched.applied, untouched.machine, untouched.snapshot, untouched.commit,
        untouched.waiters, untouched.log, untouched.extended, untouched.installing,
          untouched.stance.imp_right fun deposed =>
          ⟨deposed.higher, deposed.unvoted, deposed.fatal, deposed.saving⟩⟩

/-! ### Votes -/

theorem castVote_settled (req : RequestVoteRequest) :
    (n.castVote req).Traces fun calls r => Settled fresh n calls r.2.voteGranted r.1 := by
  have same : Settled fresh n [] false n := .quiet rfl rfl fun _ member => member
  unfold castVote
  split
  · simp only [persistHardStateLocked, saveHardStateLocked, perform_bind, traces_call]
    constructor
    · exact .success (by simp) rfl rfl fun _ member => member
    · exact .failure (.refl n) id (Or.inl rfl)
  · exact same

theorem handleRequestVote_settled (req : RequestVoteRequest) :
    (n.handleRequestVote cfg req).Traces fun calls r =>
      Settled fresh n calls r.2.voteGranted r.1 := by
  have same : Settled fresh n [] false n := .quiet rfl rfl fun _ member => member
  unfold handleRequestVote
  split
  · exact same
  split
  · exact same
  split
  · exact same
  split
  · exact stepDown_traces (castVote_settled req) ⟨_, rfl, rfl, Or.inl rfl⟩
  · exact castVote_settled req

/-! ### Appended entries -/

theorem mergeLoop_appends (result : MergeEntriesResult) (entries : List LogEntry) :
    (n.mergeLoop result entries).2.replaced = true ∧ (n.mergeLoop result entries).2.changed = true ∨
    0 < (n.mergeLoop result entries).2.conflictIndex ∨
    ∃ more, (n.mergeLoop result entries).1.log = n.log ++ more ∧
      (n.mergeLoop result entries).2.appended = result.appended ++ more ∧
      (n.mergeLoop result entries).2.changed = (result.changed || !more.isEmpty) := by
  fun_induction mergeLoop n result entries with
  | case1 n result => exact Or.inr (Or.inr ⟨[], by simp⟩)
  | case2 n result entry entries covered ih => exact ih
  | case3 n result entry entries beyond inside same ih => exact ih
  | case4 n result entry entries beyond inside differs committed =>
      right
      left
      change 0 < entry.index
      omega
  | case5 n result entry entries beyond inside differs uncommitted cut => exact Or.inl ⟨rfl, rfl⟩
  | case6 n result entry entries beyond outside gap => exact Or.inr (Or.inl (Nat.succ_pos _))
  | case7 n result entry entries beyond outside next ih =>
      rcases ih with replaced | refused | ⟨more, log, appended, changed⟩
      · exact Or.inl replaced
      · exact Or.inr (Or.inl refused)
      · refine Or.inr (Or.inr ⟨entry :: more, ?_, ?_, ?_⟩)
        · simpa using log
        · simpa using appended
        · simpa using changed

/-- The call that writes a merged log, as `spliceEntries` chooses it. -/
def mergeWrite (merged : Node) (merge : MergeEntriesResult) : StoreOp :=
  if merge.replaced = true then .replaceEntries merged.log else .appendEntries merge.appended

theorem mergeEntriesLocked_written {prevLogIndex : Nat} {entries : List LogEntry}
    {merge : MergeEntriesResult} (merges : n.mergeEntriesLocked prevLogIndex entries = (m, merge))
    (agreed : ¬ 0 < merge.conflictIndex) :
    writtenLog n.log [(mergeWrite m merge, true)] = m.log ∧
      (¬ merge.changed = true → m.log = n.log) := by
  unfold mergeEntriesLocked at merges
  simp only at merges
  split at merges
  · cases merges
    exact absurd ‹_› agreed
  · have outcome :=
      mergeLoop_appends (n := n) { lastNewIndex := n.lastNewIndex prevLogIndex entries } entries
    rw [merges] at outcome
    unfold mergeWrite
    rcases outcome with ⟨replaced, changed⟩ | refused | ⟨more, log, appended, changed⟩
    · rw [if_pos replaced]
      exact ⟨rfl, fun unchanged => absurd changed unchanged⟩
    · exact absurd refused agreed
    · simp only [List.nil_append, Bool.false_or] at appended changed
      constructor
      · split
        · rfl
        · rw [appended, log]
          rfl
      · intro unchanged
        rw [changed] at unchanged
        cases more with
        | nil => simpa using log
        | cons entry more => exact absurd rfl unchanged

theorem Settled.uncommitted {hs : HardState} {entries : List LogEntry}
    (wal : op = .appendEntries entries ∨ op = .replaceEntries entries)
    (written : writtenLog n.log [(op, true)] = m.log) (unmoved : Unmoved { n with log := m.log } m)
    (fatal : n.storageFatal = true → m.storageFatal = true) (stance : m.stance = n.stance) :
    Settled fresh n [(op, true), (.saveHardState hs, false)] false m := by
  have saved : lastSaved n.stance [(op, true), (.saveHardState hs, false)] = n.stance := by
    rcases wal with rfl | rfl <;> rfl
  have log : writtenLog n.log [(op, true), (.saveHardState hs, false)] = m.log := by
    rw [← written]
    rcases wal with rfl | rfl <;> rfl
  have snapshotless : ∀ snapshot, (StoreOp.saveSnapshot snapshot, true) ∉
      [(op, true), (.saveHardState hs, false)] := by
    intro snapshot member
    rcases wal with rfl | rfl <;> simp at member
  refine ⟨fun _ member => Or.inl (unmoved.waiters member), fatal,
    fun _ => by rw [saved, stance], ?_⟩
  intro other member
  have failing : other = .saveHardState hs := by simpa using member
  subst failing
  exact ⟨rfl, unmoved.applied, unmoved.machine, unmoved.snapshot, unmoved.commit, unmoved.waiters,
    fun writes => (nomatch writes), fun _ => log.symm, fun snapshot member =>
      absurd member (snapshotless snapshot),
    Or.inl (by rw [saved, stance])⟩

theorem commitTo_settled (newCommit : Nat) :
    (n.commitTo newCommit).Traces fun calls r => Settled fresh n calls r.2.success r.1 := by
  unfold commitTo
  split
  · simp only [persistHardStateLocked, saveHardStateLocked, perform_bind, traces_call]
    constructor
    · exact .success (by simp) rfl rfl fun _ member => member
    · exact .failure (.refl n) id (Or.inl rfl)
  · exact .quiet rfl rfl fun _ member => member

theorem committing_settled (newCommit : Nat) {log entries : List LogEntry}
    (wal : op = .appendEntries entries ∨ op = .replaceEntries entries)
    (written : writtenLog n.log [(op, true)] = log) :
    (commitTo { n with log := log } newCommit).Traces fun calls r =>
      Settled fresh n ((op, true) :: calls) r.2.success r.1 := by
  unfold commitTo
  split
  · simp only [persistHardStateLocked, saveHardStateLocked, perform_bind, traces_call]
    constructor
    · refine .success (by simp) ?_ rfl fun _ member => member
      rcases wal with rfl | rfl <;> rfl
    · exact .uncommitted wal written (.refl _) id rfl
  · refine .success (by simp) ?_ rfl fun _ member => member
    rcases wal with rfl | rfl <;> rfl

theorem spliceEntries_settled (req : AppendEntriesRequest) :
    (n.spliceEntries cfg req).Traces fun calls r => Settled fresh n calls r.2.success r.1 := by
  rcases mergeEntriesLocked_memory (n := n) req.prevLogIndex req.entries with ⟨log, memory⟩
  have written {merge : MergeEntriesResult}
      (merges : n.mergeEntriesLocked req.prevLogIndex req.entries =
        ({ n with log := log }, merge)) := mergeEntriesLocked_written merges
  unfold spliceEntries
  generalize n.mergeEntriesLocked req.prevLogIndex req.entries = outcome at memory written ⊢
  rcases outcome with ⟨merged, merge⟩
  simp only at memory ⊢
  subst memory
  split
  · exact .quiet rfl rfl fun _ member => member
  rename_i agreed
  obtain ⟨durable, unchanged⟩ := written rfl agreed
  split
  · rename_i changed
    obtain ⟨entries, wal⟩ : ∃ entries, mergeWrite { n with log := log } merge =
      .appendEntries entries ∨
        mergeWrite { n with log := log } merge = .replaceEntries entries := by
      unfold mergeWrite
      split
      · exact ⟨_, Or.inr rfl⟩
      · exact ⟨_, Or.inl rfl⟩
    have write : (if merge.replaced = true then StoreOp.replaceEntries log
        else .appendEntries merge.appended) = mergeWrite { n with log := log } merge := rfl
    simp only [write, perform_bind, traces_call, if_true]
    generalize mergeWrite { n with log := log } merge = op at durable wal ⊢
    constructor
    · exact committing_settled _ wal durable
    · exact .failure ⟨rfl, rfl, rfl, rfl, rfl, List.filter_subset_self _⟩ (fun _ => rfl)
        (Or.inl rfl)
  · rename_i same
    have log : log = n.log := unchanged same
    subst log
    exact commitTo_settled _

theorem leader_prelude (n : Node) (leaderID : NodeId) :
    Prelude n [] { n with leaderID := leaderID } :=
  ⟨by simp, ⟨rfl, rfl, rfl, rfl, rfl, fun _ member => member⟩, rfl, rfl⟩

theorem matchEntries_settled (req : AppendEntriesRequest) :
    (n.matchEntries cfg req).Traces fun calls r => Settled fresh n calls r.2.success r.1 := by
  unfold matchEntries
  simp only
  split
  · exact .quiet rfl rfl fun _ member => member
  split
  · exact .quiet rfl rfl fun _ member => member
  · exact (leader_prelude n req.leaderID).traces (spliceEntries_settled req)

theorem handleAppendEntries_settled (req : AppendEntriesRequest) :
    (n.handleAppendEntries cfg req).Traces fun calls r =>
      Settled fresh n calls r.2.success r.1 := by
  have same : Settled fresh n [] false n := .quiet rfl rfl fun _ member => member
  unfold handleAppendEntries
  simp only
  split
  · exact same
  split
  · exact same
  split
  · exact same
  split
  · exact stepDown_traces (matchEntries_settled req) ⟨_, rfl, rfl, Or.inl rfl⟩
  · exact matchEntries_settled req

/-! ### Snapshots -/

def InstallProgress.grants : InstallProgress → Bool
  | .answer resp => resp.success
  | .decode _ => false

theorem collectChunk_settled (req : InstallSnapshotRequest) :
    Settled fresh n [] granted (n.collectChunk req).1 := by
  rcases collectChunk_eq n req with ⟨pending, same⟩
  rw [same]
  exact .quiet rfl rfl fun _ member => member

theorem handleInstallSnapshot_settled (req : InstallSnapshotRequest) :
    (n.handleInstallSnapshot cfg req).Traces fun calls r =>
      Settled fresh n calls r.2.grants r.1 := by
  have same : Settled fresh n [] false n := .quiet rfl rfl fun _ member => member
  unfold handleInstallSnapshot
  split
  · exact same
  split
  · exact same
  split
  · exact same
  split
  · exact stepDown_traces (collectChunk_settled req) ⟨_, rfl, rfl, Or.inr rfl⟩
  · exact collectChunk_settled req

theorem Settled.uninstalled {snapshot : Snapshot} {entries : List LogEntry} (hs : HardState)
    (unmoved : Unmoved n m) (fatal : m.storageFatal = true) (stance : m.stance = n.stance)
    (known : entries ⊆ n.log)
    (stopped : calls = [(.saveSnapshot snapshot, false)] ∨
      calls = [(.saveSnapshot snapshot, true), (.replaceEntries entries, false)] ∨
      calls = [(.saveSnapshot snapshot, true), (.replaceEntries entries, true),
        (.saveHardState hs, false)]) :
    Settled fresh n calls false m := by
  have saved : lastSaved n.stance calls = n.stance := by
    rcases stopped with rfl | rfl | rfl <;> rfl
  refine ⟨fun _ member => Or.inl (unmoved.waiters member), fun _ => fatal,
    fun _ => by rw [saved, stance],
    fun op member => ⟨rfl, unmoved.applied, unmoved.machine, unmoved.snapshot, unmoved.commit,
      unmoved.waiters, fun _ => unmoved.log, ?_, ?_, Or.inl (by rw [saved, stance])⟩⟩
  · intro none
    rcases stopped with rfl | rfl | rfl
    · exact unmoved.log
    · exact absurd List.mem_cons_self (none snapshot)
    · exact absurd List.mem_cons_self (none snapshot)
  · intro _ _
    refine ⟨unmoved.log, fun written member => ?_⟩
    rcases stopped with rfl | rfl | rfl
    · simp at member
    · simp at member
    · have same : written = entries := by simpa using member
      rwa [same]

theorem persistInstall_settled (snapshot : Snapshot) (length : Nat) :
    (n.persistInstall cfg snapshot length).Traces fun calls r =>
      Settled fresh n calls r.2.success r.1 := by
  have unmoved : Unmoved n (failStorageLocked { n with pendingSnapshot := none } cfg) :=
    ⟨rfl, rfl, rfl, rfl, rfl, List.filter_subset_self _⟩
  have known : n.logAfterSnapshotLocked snapshot ⊆ n.log := by
    unfold logAfterSnapshotLocked
    split
    · exact List.filter_subset_self _
    · exact List.nil_subset _
  simp only [persistInstall, saveHardStateLocked, perform_bind, traces_call, if_true]
  refine ⟨⟨⟨?_, ?_⟩, ?_⟩, ?_⟩
  · exact .success (by simp) rfl rfl fun _ member => member
  · exact .uninstalled _ unmoved rfl rfl known (Or.inr (Or.inr rfl))
  · exact .uninstalled {} unmoved rfl rfl known (Or.inr (Or.inl rfl))
  · exact .uninstalled {} unmoved rfl rfl known (Or.inl rfl)

theorem finishInstall_settled (req : InstallSnapshotRequest) (body : Bytes) (data : Option KVMap) :
    (n.finishInstall cfg req body data).Traces fun calls r =>
      Settled fresh n calls r.2.success r.1 := by
  unfold finishInstall
  simp only
  split
  · exact .quiet rfl rfl fun _ member => member
  split
  · exact .quiet rfl rfl fun _ member => member
  split
  · exact (leader_prelude n req.leaderID).traces (persistInstall_settled _ _)
  · exact .quiet rfl rfl fun _ member => member

theorem installDecoded_settled (req : InstallSnapshotRequest) (body : Bytes) (data : Option KVMap) :
    (n.installDecoded cfg req body data).Traces fun calls r =>
      Settled fresh n calls r.2.success r.1 := by
  have refused : Settled fresh n [] false { n with pendingSnapshot := none } :=
    .quiet rfl rfl fun _ member => member
  unfold installDecoded
  simp only
  split
  · exact refused
  split
  · exact refused
  split
  · exact refused
  split
  · exact stepDown_traces (finishInstall_settled req body data) ⟨_, rfl, rfl, Or.inr rfl⟩
  · exact finishInstall_settled req body data

theorem saveSnapshot_settled (snapshot : Snapshot) :
    (perform (StoreOp.saveSnapshot snapshot)).Traces fun calls _ =>
      Settled fresh n calls false n := by
  simp only [perform, traces_call]
  constructor
  · exact .success (by simp) rfl rfl fun _ member => member
  · exact .failure (.refl n) id (Or.inl rfl)

theorem compact_settled (snapshot : Snapshot) :
    (n.compact snapshot).Traces fun calls m => Settled fresh n calls false m := by
  unfold compact
  split
  · exact .quiet rfl rfl fun _ member => member
  · simp only [perform_bind, traces_call]
    constructor
    · exact .success (by simp) rfl rfl fun _ member => member
    · exact .failure (.refl n) id (Or.inl rfl)

/-! ### Leaders -/

theorem advanceCommitLocked_traces {post : Calls → Node → Prop} (idle : post [] n)
    (advance : ∀ index, n.commitIndex < index → index ≤ n.lastIndexLocked →
      post [(.saveHardState (n.hardState index), true)] { n with commitIndex := index } ∧
        post [(.saveHardState (n.hardState index), false)] (n.failStorageLocked cfg)) :
    (n.advanceCommitLocked cfg).Traces post := by
  unfold advanceCommitLocked
  split
  · exact idle
  · rename_i index found
    obtain ⟨beyond, inside, -, -⟩ := commitTarget_some found
    simp only [persistHardStateLocked, saveHardStateLocked, perform_bind, traces_call]
    exact advance index beyond inside

theorem advanceCommitLocked_settled :
    (n.advanceCommitLocked cfg).Traces fun calls m => Settled fresh n calls false m := by
  refine advanceCommitLocked_traces (.quiet rfl rfl fun _ member => member) fun index _ _ =>
    ⟨?_, ?_⟩
  · exact .success (by simp) rfl rfl fun _ member => member
  · exact .failure (failStorageLocked_unmoved n cfg) (fun _ => rfl) (Or.inl rfl)

theorem proposeAppend_settled (command : Command) (chan : ChanId) :
    (n.proposeAppend cfg command chan).Traces fun calls r => Settled [chan] n calls false r.1 := by
  -- The waiter of the new entry is beyond the commit index, so a failed commit turns it away.
  have same : Settled [chan] n [] false n := .quiet rfl rfl fun _ member => member
  unfold proposeAppend
  split
  · exact same
  split
  · exact same
  split
  · exact same
  simp only [perform_bind, traces_call, if_true]
  generalize fresh : (LogEntry.mk (n.lastIndexLocked + 1) n.currentTerm command) = entry
  have last : (n.accepted cfg entry chan).lastIndexLocked = entry.index := by
    simp [lastIndexLocked, accepted, Storage.lastIndex]
  have added : ∀ waiter ∈ (n.accepted cfg entry chan).waiters, waiter ∈ n.waiters ∨
      waiter.2 ∈ [chan] := by
    intro waiter member
    rcases List.mem_append.mp member with old | new
    · exact Or.inl old
    · rw [List.mem_singleton] at new
      subst new
      exact Or.inr List.mem_cons_self
  constructor
  · refine Traces.bind (advanceCommitLocked_traces ?_ fun index beyond inside => ⟨?_, ?_⟩)
    · exact ⟨added, id, fun _ => rfl, fun op member => by simp at member⟩
    · exact ⟨added, id, fun _ => rfl, fun op member => by simp at member⟩
    · refine .uncommitted (Or.inl rfl) rfl ⟨rfl, rfl, rfl, rfl, rfl, ?_⟩ (fun _ => rfl) rfl
      intro waiter member
      obtain ⟨present, committed⟩ := List.mem_filter.mp member
      rcases List.mem_append.mp present with old | new
      · exact old
      · rw [List.mem_singleton] at new
        subst new
        rw [last] at inside
        have late : n.commitIndex < entry.index := lt_of_lt_of_le beyond inside
        simp [accepted, late] at committed
  · exact .failure (failStorageLocked_unmoved n cfg) (fun _ => rfl) (Or.inl rfl)

theorem startElection_settled :
    (n.startElection cfg).Traces fun calls r => Settled fresh n calls false r.1 := by
  unfold startElection
  split
  · exact .quiet rfl rfl fun _ member => member
  · simp only [persistHardStateLocked, saveHardStateLocked, perform_bind, traces_call, if_true]
    constructor
    · exact .success (by simp) rfl rfl fun _ member => member
    · exact .failure ⟨rfl, rfl, rfl, rfl, rfl, fun _ member => member⟩ id (Or.inl rfl)

theorem becomeLeader_settled (term : Nat) :
    (n.becomeLeader cfg term).Traces fun calls m => Settled fresh n calls false m := by
  unfold becomeLeader
  split
  · exact .quiet rfl rfl fun _ member => member
  simp only [perform_bind, traces_call, if_true]
  constructor
  · refine advanceCommitLocked_traces ?_ fun index beyond inside => ⟨?_, ?_⟩
    · exact .success (by simp) rfl rfl fun _ member => member
    · exact .success (by simp) rfl rfl fun _ member => member
    · exact .uncommitted (Or.inl rfl) rfl ⟨rfl, rfl, rfl, rfl, rfl, List.filter_subset_self _⟩
        (fun _ => rfl) rfl
  · exact .failure ⟨rfl, rfl, rfl, rfl, rfl, List.filter_subset_self _⟩ (fun _ => rfl) (Or.inl rfl)

theorem replicateReply_settled (peer : NodeId) (req : AppendEntriesRequest)
    (resp : AppendEntriesResponse) :
    (n.replicateReply cfg peer req resp).Traces fun calls r => Settled fresh n calls false r.1 := by
  unfold replicateReply
  split
  · exact stepDown_traces (.quiet rfl rfl fun _ member => member) ⟨_, rfl, rfl, Or.inl rfl⟩
  split
  · exact .quiet rfl rfl fun _ member => member
  split
  · have prelude : Prelude n [] (n.acknowledge peer (req.prevLogIndex + req.entries.length)) :=
      ⟨by simp, ⟨rfl, rfl, rfl, rfl, rfl, fun _ member => member⟩, rfl, rfl⟩
    have advanced :
        (advanceCommitLocked (n.acknowledge peer (req.prevLogIndex + req.entries.length))
          cfg).Traces fun calls m => Settled fresh n calls false m :=
      prelude.traces advanceCommitLocked_settled
    refine Traces.bind (advanced.mono fun calls m settled => ?_)
    rw [pure_eq, traces_ret, List.append_nil]
    exact settled
  split
  · exact .quiet rfl rfl fun _ member => member
  · exact .quiet rfl rfl fun _ member => member

theorem sendSnapshotReply_settled (term : Nat) (resp : InstallSnapshotResponse) :
    (n.sendSnapshotReply cfg term resp).Traces fun calls r => Settled fresh n calls false r.1 := by
  unfold sendSnapshotReply
  split
  · exact stepDown_traces (.quiet rfl rfl fun _ member => member) ⟨_, rfl, rfl, Or.inl rfl⟩
  · exact .quiet rfl rfl fun _ member => member

theorem stepDown_settled (term : Nat) (leaderID : NodeId) :
    (n.becomeFollowerLocked cfg term leaderID).Traces fun calls r =>
      Settled fresh n calls false r.1 := by
  refine becomeFollowerLocked_traces ?_ (fallen_settled n term leaderID)
  exact @Prelude.settled _ _ _ _ _ [] _ (steppedDown_prelude n cfg term leaderID)
    (.quiet rfl rfl fun _ member => member)

theorem Quiet.waiters {action : Action} (quiet : Quiet cfg n action m) : m.waiters ⊆ n.waiters := by
  cases quiet with
  | cancel index chan => exact List.erase_subset
  | replicate peer =>
      rcases replicateToPeer_eq n cfg peer with ⟨⟨nextIndex, same⟩, -⟩
      rw [same]
      exact fun _ member => member
  | snapshotSent peer term snapIdx =>
      unfold Node.snapshotSent
      split <;> exact fun _ member => member
  | applyNext =>
      unfold Node.applyNext
      split
      · exact fun _ member => member
      split <;> exact fun _ member => member
  | applyDone entry result =>
      rw [applyDone_eq]
      split
      · exact List.filter_subset_self _
      · exact fun _ member => member
  | stop =>
      unfold Node.stop
      split
      · exact fun _ member => member
      · exact List.filter_subset_self _
  | _ => exact fun _ member => member

theorem Quiet.settled {action : Action} (quiet : Quiet cfg n action m) :
    Settled fresh n [] granted m :=
  .quiet (congrArg₂ Prod.mk quiet.akin.term quiet.akin.vote) quiet.akin.fatal quiet.waiters

theorem newNode_traces (loaded : Loaded) :
    (newNode loaded).Traces fun calls result => ∀ n, result = some n → n = restored loaded ∧
      n.stance = lastSaved (loaded.hardState.currentTerm, loaded.hardState.votedFor) calls := by
  unfold newNode
  simp only
  split
  · simp only [perform_bind, traces_call]
    refine ⟨?_, by rintro n ⟨⟩⟩
    split
    · rintro n ⟨⟩
    split
    · simp only [persistHardStateLocked, saveHardStateLocked, perform_bind, traces_call]
      refine ⟨?_, by rintro n ⟨⟩⟩
      rintro n ⟨⟩
      exact ⟨rfl, rfl⟩
    · rintro n ⟨⟩
      exact ⟨rfl, rfl⟩
  · simp only [pure_eq, ret_bind]
    split
    · rintro n ⟨⟩
    split
    · simp only [persistHardStateLocked, saveHardStateLocked, perform_bind, traces_call]
      refine ⟨?_, by rintro n ⟨⟩⟩
      rintro n ⟨⟩
      exact ⟨rfl, rfl⟩
    · rintro n ⟨⟩
      exact ⟨rfl, rfl⟩

end Node

/-! ### Events -/

/-- An answer that grants a vote or acknowledges entries or a snapshot. -/
def Output.granted : Output → Bool
  | .vote resp => resp.voteGranted
  | .append resp => resp.success
  | .snapshot _ resp => resp.success
  | _ => false

/-- The channels that an event hands to a waiter. -/
def Action.fresh (chans : Nat) : Action → List ChanId
  | .propose _ => [chans]
  | _ => []

def Proc.calls (cfg : Config) (codec : SnapshotCodec) (chans : Nat) (proc : Proc)
    (fates : List Fate) :
    Action → Calls
  | .requestVote req => (proc.node.handleRequestVote cfg req).trace fates
  | .appendEntries req => (proc.node.handleAppendEntries cfg req).trace fates
  | .installSnapshot _ req =>
      match proc.persistMu with
      | .free => (proc.node.handleInstallSnapshot cfg req).trace fates
      | _ => []
  | .installDecoded =>
      match proc.persistMu with
      | .decoding _ req body =>
          match codec.decodeBody body with
          | none => []
          | some data =>
              if proc.applyMu = .free then (proc.node.installDecoded cfg req body data).trace fates
                else []
      | _ => []
  | .propose command => (proc.node.proposeAppend cfg command chans).trace fates
  | .startElection => (proc.node.startElection cfg).trace fates
  | .becomeLeader term => (proc.node.becomeLeader cfg term).trace fates
  | .stepDown term leaderID => (proc.node.becomeFollowerLocked cfg term leaderID).trace fates
  | .replicateReply peer req resp => (proc.node.replicateReply cfg peer req resp).trace fates
  | .snapshotReply term resp => (proc.node.sendSnapshotReply cfg term resp).trace fates
  | .persistSave =>
      match proc.persistMu with
      | .checked snapshot => (Program.perform (StoreOp.saveSnapshot snapshot)).trace fates
      | _ => []
  | .persistEnd =>
      match proc.persistMu with
      | .saved snapshot => (proc.node.compact snapshot).trace fates
      | _ => []
  | _ => []

namespace Host

variable {cfg : Config} {codec : SnapshotCodec} {host : Host} {p q : Proc} {fates : List Fate}
  {action : Action}

/-- What is left after the event of a process that goes on. -/
structure Settles (host : Host) (p : Proc) (action : Action) (calls : Calls)
    (after : Host × Output) :
    Prop where
  node : ∀ q, after.1.proc = some q →
    Node.Settled (action.fresh host.chans) p.node calls after.2.granted q.node
  chans : after.1.proc ≠ none → after.1.chans = host.chans + (action.fresh host.chans).length

theorem run_settles {α : Type} {program : Program StoreOp α} {memory : α → Node} {grants : α → Bool}
    {finish : α → Host × Output}
    (every : program.Traces fun calls value =>
      Node.Settled (action.fresh host.chans) p.node calls (grants value) (memory value))
    (granted : ∀ value, (finish value).2.granted = grants value)
    (node : ∀ value q, (finish value).1.proc = some q → q.node = memory value)
    (chans : ∀ value, (finish value).1.chans = host.chans + (action.fresh host.chans).length) :
    Settles host p action (program.trace fates) (host.run program fates finish) := by
  unfold run
  cases ending : program.exec store host.disk fates with
  | done value disk =>
      refine ⟨fun q alive => ?_, fun _ => chans value⟩
      have settled := every.exec ending
      rw [← node value q alive, ← granted value] at settled
      exact settled
  | crashed disk => exact ⟨by rintro _ ⟨⟩, fun alive => absurd rfl alive⟩

theorem quiet_settles (cfg : Config) {output : Output} (quiet : Node.Quiet cfg p.node action q.node)
    (quota : action.fresh host.chans = []) :
    Settles host p action [] (host.withProc q, output) := by
  refine ⟨fun other alive => ?_, fun _ => by rw [quota]; rfl⟩
  cases alive
  exact quiet.settled

theorem step_settles (live : host.proc = some p) :
    Settles host p action (p.calls cfg codec host.chans fates action)
      (p.step cfg codec host fates action) := by
  have idle (output : Output) (quota : action.fresh host.chans = []) :
      Settles host p action [] (host, output) := by
    have same : host.withProc p = host := by
      rcases host with ⟨disk, proc, chans⟩
      cases live
      rfl
    have settles : Settles host p action [] (host.withProc p, output) :=
      quiet_settles cfg (.idle action) quota
    rwa [same] at settles
  have node {α : Type} (output : α → Output) (value : Node × α) (q : Proc)
      (alive : ((host.withNode p value.1, output value.2) : Host × Output).1.proc = some q) :
      q.node = value.1 := by
    cases alive
    rfl
  cases action with
  | requestVote req =>
      exact run_settles (Node.handleRequestVote_settled req) (fun _ => rfl) (node .vote) fun _ =>
        rfl
  | appendEntries req =>
      exact run_settles (Node.handleAppendEntries_settled req) (fun _ => rfl) (node .append)
        fun _ => rfl
  | installSnapshot call req =>
      cases lock : p.persistMu with
      | free =>
          simp only [Proc.step, Proc.calls, lock]
          apply run_settles (Node.handleInstallSnapshot_settled req)
          · rintro ⟨m, progress⟩
            cases progress <;> rfl
          · rintro ⟨m, progress⟩ q alive
            cases progress <;> cases alive <;> rfl
          · rintro ⟨m, progress⟩
            cases progress <;> rfl
      | _ =>
          simp only [Proc.step, Proc.calls, lock]
          exact idle _ rfl
  | installDecoded =>
      cases lock : p.persistMu with
      | decoding call req body =>
          simp only [Proc.step, Proc.calls, lock]
          cases codec.decodeBody body with
          | none => exact quiet_settles cfg .undecoded rfl
          | some data =>
              by_cases free : p.applyMu = .free
              · simp only [if_pos free]
                refine run_settles (Node.installDecoded_settled _ _ _) (fun _ => rfl) ?_ fun _ =>
                  rfl
                intro value q alive
                cases alive
                rfl
              · simp only [if_neg free]
                exact idle _ rfl
      | _ =>
          simp only [Proc.step, Proc.calls, lock]
          exact idle _ rfl
  | propose command =>
      refine run_settles (Node.proposeAppend_settled command host.chans) (fun _ => rfl) ?_ fun _ =>
        rfl
      intro value q alive
      cases alive
      rfl
  | cancel index chan => exact quiet_settles cfg (.cancel index chan) rfl
  | startElection =>
      refine run_settles Node.startElection_settled ?_ (node .ofElection) fun _ => rfl
      rintro ⟨m, req⟩
      cases req <;> rfl
  | becomeLeader term =>
      refine run_settles (Node.becomeLeader_settled term) (fun _ => rfl) ?_ fun _ => rfl
      intro value q alive
      cases alive
      rfl
  | stepDown term leaderID =>
      exact run_settles (Node.stepDown_settled term leaderID) (fun _ => rfl)
        (node fun _ => .nothing)
        fun _ => rfl
  | replicate peer => exact quiet_settles cfg (.replicate peer) rfl
  | replicateReply peer req resp =>
      refine run_settles (Node.replicateReply_settled peer req resp) ?_ (node (.ofAttempt peer))
        fun _ => rfl
      rintro ⟨m, acked⟩
      cases acked <;> rfl
  | snapshotReply term resp =>
      exact run_settles (Node.sendSnapshotReply_settled term resp) (fun _ => rfl)
        (node fun leads => .chunkAcked (leads && resp.success)) fun _ => rfl
  | snapshotSent peer term snapIdx => exact quiet_settles cfg (.snapshotSent peer term snapIdx) rfl
  | applyNext =>
      have applied : Node.Quiet cfg p.node .applyNext p.node.applyNext.1 := .applyNext
      simp only [Proc.step, Proc.calls]
      split
      · generalize p.node.applyNext = outcome at applied ⊢
        rcases outcome with ⟨m, entry⟩
        cases entry with
        | none => exact quiet_settles cfg applied rfl
        | some entry => exact quiet_settles cfg applied rfl
      · exact idle _ rfl
  | applyEntry =>
      simp only [Proc.step, Proc.calls]
      split
      · exact quiet_settles cfg (.applyEntry _) rfl
      · exact idle _ rfl
  | applyDone =>
      simp only [Proc.step, Proc.calls]
      split
      · exact quiet_settles cfg (.applyDone _ _) rfl
      · exact idle _ rfl
  | persistCheck position =>
      simp only [Proc.step, Proc.calls]
      split
      · split <;> exact quiet_settles cfg (.idle _) rfl
      · exact idle _ rfl
  | persistSave =>
      cases lock : p.persistMu with
      | checked snapshot =>
          simp only [Proc.step, Proc.calls, lock]
          refine run_settles (Node.saveSnapshot_settled snapshot) (fun _ => rfl) ?_ fun _ => rfl
          intro value q alive
          cases alive
          rfl
      | _ =>
          simp only [Proc.step, Proc.calls, lock]
          exact idle _ rfl
  | persistEnd =>
      cases lock : p.persistMu with
      | saved snapshot =>
          simp only [Proc.step, Proc.calls, lock]
          refine run_settles (Node.compact_settled snapshot) (fun _ => rfl) ?_ fun _ => rfl
          intro value q alive
          cases alive
          rfl
      | _ =>
          simp only [Proc.step, Proc.calls, lock]
          exact idle _ rfl
  | stop => exact quiet_settles cfg .stop rfl
  | crash => exact ⟨by rintro _ ⟨⟩, fun alive => absurd rfl alive⟩
  | restart => exact idle _ rfl

/-- The hosts with a running process that can be reached, with the term and the vote of the last
hard state that the store has accepted from it; to begin with, of the one it has loaded. -/
inductive Lives (cfg : Config) (codec : SnapshotCodec) : Host → Nat × String → Prop
  | started (before : Host) (loaded : Loaded) (fates : List Fate) (down : before.proc = none)
      (loads : before.disk.load = .ok loaded) :
      Lives cfg codec (before.step cfg codec fates .restart).1
        (lastSaved (loaded.hardState.currentTerm, loaded.hardState.votedFor)
          ((Node.newNode loaded).trace fates))
  | event {host : Host} {stance : Nat × String} (p : Proc) (fates : List Fate) (action : Action)
      (lives : Lives cfg codec host stance) (live : host.proc = some p) :
      Lives cfg codec (host.step cfg codec fates action).1
        (lastSaved stance (p.calls cfg codec host.chans fates action))

/-- As long as no step-down has failed, memory holds the term and the vote that were last saved;
every waiter waits on a channel that was handed out. -/
structure Synced (stance : Nat × String) (host : Host) (p : Proc) : Prop where
  stance : p.node.storageFatal = false → p.node.stance = stance
  numbered : ∀ waiter ∈ p.node.waiters, waiter.2 < host.chans

theorem Lives.synced {stance : Nat × String} (lives : Lives cfg codec host stance) :
    ∀ p, host.proc = some p → Synced stance host p := by
  induction lives with
  | started before loaded fates down loads =>
      intro p live
      simp only [step, down, loads] at live
      unfold run at live
      cases ending : (Node.newNode loaded).exec store before.disk fates with
      | crashed disk =>
          rw [ending] at live
          cases live
      | done result disk =>
          rw [ending] at live
          cases result with
          | none => cases live
          | some n =>
              cases live
              obtain ⟨fresh, stance⟩ := (Node.newNode_traces loaded).exec ending n rfl
              refine ⟨fun _ => stance, fun waiter member => ?_⟩
              rw [fresh] at member
              cases member
  | @event host stance p fates action lives live ih =>
      intro q alive
      have running : host.step cfg codec fates action = p.step cfg codec host fates action := by
        unfold step
        rw [live]
      rw [running] at alive ⊢
      have before := ih p live
      have settles : Settles host p action (p.calls cfg codec host.chans fates action)
          (p.step cfg codec host fates action) := step_settles live
      have settled := settles.node q alive
      have chans := settles.chans (by rw [alive]; exact Option.some_ne_none q)
      constructor
      · intro usable
        have earlier : p.node.storageFatal = false := by
          by_contra failed
          rw [settled.stays (by simpa using failed)] at usable
          cases usable
        rw [settled.synced usable, before.stance earlier]
      · intro waiter member
        rw [chans]
        rcases settled.waiters waiter member with old | new
        · exact Nat.lt_add_right _ (before.numbered waiter old)
        · cases action with
          | propose command =>
              rw [List.mem_singleton.mp new]
              exact Nat.lt_succ_self _
          | _ => cases new

/-- Whatever call to the store fails, in whatever section of a process whose storage has not failed
before: nothing is granted, no proposal is left waiting, and memory is not ahead of what was
written. -/
theorem no_memory_ahead {stance : Nat × String} {op : StoreOp} (lives : Lives cfg codec host stance)
    (live : host.proc = some p) (usable : p.node.storageFatal = false)
    (failed : (op, false) ∈ p.calls cfg codec host.chans fates action)
    (alive : (host.step cfg codec fates action).1.proc = some q) :
    (host.step cfg codec fates action).2.granted = false ∧
      (∀ waiter ∈ q.node.waiters, waiter ∈ p.node.waiters ∧ waiter.2 ≠ host.chans) ∧
      Node.Untouched p.node (p.calls cfg codec host.chans fates action) op q.node ∧
      (q.node.stance = lastSaved stance (p.calls cfg codec host.chans fates action) ∨
        Node.Deposed (lastSaved stance (p.calls cfg codec host.chans fates action)) op q.node) := by
  have running : host.step cfg codec fates action = p.step cfg codec host fates action := by
    unfold step
    rw [live]
  rw [running] at alive ⊢
  have synced := lives.synced p live
  have settles : Settles host p action (p.calls cfg codec host.chans fates action)
      (p.step cfg codec host fates action) := step_settles live
  obtain ⟨refused, untouched⟩ := (settles.node q alive).failed op failed
  refine ⟨refused, fun waiter member => ?_, untouched, ?_⟩
  · have old := untouched.waiters member
    exact ⟨old, Nat.ne_of_lt (synced.numbered waiter old)⟩
  · rw [← synced.stance usable]
    exact untouched.stance

/-- Node `a` has saved a new term and overwritten its log, but could not save the commit index. -/
theorem no_memory_ahead_overwrite : ∃ p q, compactedStart.proc = some p ∧
    (compactedStart.step (trio "a") SnapshotJson.codec [.ok, .ok, .err 0]
      (.appendEntries overwrite)).1.proc = some q ∧
    q.node.log = [entryAt 4 2, entryAt 5 2] ∧ q.node.commitIndex = p.node.commitIndex ∧
    q.node.stance = (2, "") := by
  have lives : Lives (trio "a") SnapshotJson.codec compactedStart (1, "") :=
    .started { disk := compactedDisk } _ [] rfl rfl
  have failed : (StoreOp.saveHardState { currentTerm := 2, votedFor := "", commitIndex := 4 },
    false) ∈
      Proc.calls (trio "a") SnapshotJson.codec 0 (compactedStart.proc.get rfl) [.ok, .ok, .err 0]
        (.appendEntries overwrite) :=
    List.mem_cons_of_mem _ (List.mem_cons_of_mem _ List.mem_cons_self)
  have untouched := (no_memory_ahead lives rfl rfl failed rfl).2.2.1
  exact ⟨_, _, rfl, rfl, rfl, untouched.commit, rfl⟩

end Host

end GoRaftKV.Raft
