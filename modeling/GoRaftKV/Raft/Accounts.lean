import GoRaftKV.Raft.SimulatedSections
import GoRaftKV.Raft.Waiters

/-! What the state machine has been given so far, and the sections that give it more: an iteration
of `applyReady`, an installation, a compaction. -/

namespace GoRaftKV.Raft

open Storage Library Program

/-- What the state machine has and `lastApplied` does not count yet. -/
def ApplyLock.ahead : ApplyLock → List LogEntry
  | .applied entry _ => [entry]
  | _ => []

/-- The state machine is the fold of the applied part of the log. -/
structure Node.Accounts (n : Node) (lock : ApplyLock) : Prop where
  history : n.history = n.fullLog.take n.lastApplied ++ lock.ahead
  folded : n.sm = KVStateMachine.replay ∅ n.history
  next : ∀ entry, lock.entry = some entry →
    n.lastApplied < n.commitIndex ∧ n.fullLog[n.lastApplied]? = some entry

namespace Node

variable {setting : Setting} {cfg : Config} {n m : Node} {a b : Ideal} {v : NodeId}
  {lock : ApplyLock}

theorem Realizes.committedPrefix {u : NodeId} (early : n.Realizes a setting.codec v)
    (late : m.Realizes b setting.codec u) (grows : Consensus.Extends a b)
    (inv : Consensus.Inv LogEntry.term setting.Quorum b) {index : Nat}
    (here : index ≤ n.commitIndex) (there : index ≤ m.commitIndex) :
    m.fullLog.take index = n.fullLog.take index := by
  have meet := fun first second => @Setting.Quorum.meet setting first second
  have one := early.wf.committed
  have two := late.wf.committed
  rw [early.whole.lastIndex] at one
  rw [late.whole.lastIndex] at two
  apply inv.chosenSame meet (late.chosen there) ((early.chosen here).mono grows le_rfl)
  rw [List.length_take_of_le (by omega), List.length_take_of_le (by omega)]

theorem Accounts.steady (accounts : n.Accounts lock) (steady : n.Steady m)
    (early : n.Realizes a setting.codec v) (late : m.Realizes b setting.codec v)
    (grows : Consensus.Extends a b) (inv : Consensus.Inv LogEntry.term setting.Quorum b) :
    m.Accounts lock := by
  have applied := early.wf.applied
  have same {index : Nat} (bound : index ≤ n.commitIndex) : m.fullLog.take index =
      n.fullLog.take index :=
    early.committedPrefix late grows inv bound (bound.trans steady.commit)
  refine ⟨?_, ?_, ?_⟩
  · rw [steady.history, steady.applied, same applied]
    exact accounts.history
  · rw [steady.sm, steady.history]
    exact accounts.folded
  · intro entry held
    rcases accounts.next entry held with ⟨pending, found⟩
    rw [steady.applied]
    refine ⟨pending.trans_le steady.commit, ?_⟩
    have reached : n.lastApplied + 1 ≤ n.commitIndex := pending
    have part := congrArg (fun log => log[n.lastApplied]?) (same reached)
    simp only [List.getElem?_take_of_lt (Nat.lt_succ_self n.lastApplied)] at part
    rw [part, found]

section Apply

variable {entry : LogEntry} {result : ApplyResult}

theorem Realizes.nextEntry (realizes : n.Realizes a setting.codec v) :
    n.entryAtLocked (n.lastApplied + 1) = n.fullLog[n.lastApplied]? := by
  have compacted := realizes.wf.compacted
  rw [realizes.whole.entryAt (by omega), Nat.add_sub_cancel]

theorem Accounts.applyNext (accounts : n.Accounts .free) (realizes : n.Realizes a setting.codec v)
    (taken : n.applyNext.2 = some entry) : n.Accounts (.applying entry) := by
  rw [applyNext_eq realizes.wf] at taken
  simp only at taken
  split at taken
  · cases taken
  · rename_i uncommitted
    rw [realizes.nextEntry] at taken
    refine ⟨accounts.history, accounts.folded, ?_⟩
    rintro _ ⟨⟩
    exact ⟨Nat.lt_of_not_le uncommitted, taken⟩

theorem Accounts.applyEntry (accounts : n.Accounts (.applying entry)) :
    (n.applyEntry entry).1.Accounts (.applied entry (n.applyEntry entry).2) := by
  refine ⟨?_, ?_, ?_⟩
  · have whole : n.history = n.fullLog.take n.lastApplied := by
      rw [accounts.history]
      exact List.append_nil _
    exact congrArg (· ++ [entry]) whole
  · have folded := KVStateMachine.replay_snoc ∅ n.history entry
    rw [← accounts.folded] at folded
    exact folded.symm
  · rintro _ ⟨⟩
    exact accounts.next entry rfl

theorem Accounts.stillApplies (accounts : n.Accounts (.applied entry result))
    (realizes : n.Realizes a setting.codec v) :
    entry.index = n.lastApplied + 1 ∧ n.stillApplies entry = true := by
  rcases accounts.next entry rfl with ⟨pending, found⟩
  have index : entry.index = n.lastApplied + 1 := by
    have placed := realizes.whole.numbered n.lastApplied entry found
    omega
  have committed : entry.index ≤ n.commitIndex := by omega
  have present : n.entryAtLocked entry.index = some entry := by
    rw [index, realizes.nextEntry, found]
  refine ⟨index, ?_⟩
  unfold Node.stillApplies
  rw [present]
  exact decide_eq_true ⟨index, committed, rfl⟩

theorem Accounts.applyDone (accounts : n.Accounts (.applied entry result))
    (realizes : n.Realizes a setting.codec v) :
    (n.applyDone cfg entry result).1.Accounts .free := by
  rcases accounts.stillApplies realizes with ⟨index, still⟩
  rw [applyDone_eq, if_pos still]
  refine ⟨?_, accounts.folded, nofun⟩
  have whole : n.fullLog.take entry.index = n.fullLog.take n.lastApplied ++ [entry] := by
    rw [index, List.take_add_one, (accounts.next entry rfl).2]
    rfl
  calc n.history = n.fullLog.take n.lastApplied ++ [entry] := accounts.history
    _ = n.fullLog.take entry.index ++ [] := by rw [whole, List.append_nil]

theorem Realizes.applyDone (realizes : n.Realizes a setting.codec v)
    (accounts : n.Accounts (.applied entry result)) :
    (n.applyDone cfg entry result).1.Realizes a setting.codec v := by
  rcases accounts.stillApplies realizes with ⟨index, still⟩
  have compacted := realizes.wf.compacted
  have wf : WellFormed { n with lastApplied := entry.index } :=
    ⟨realizes.wf.contiguous, by simp only; omega, index ▸ (accounts.next entry rfl).1,
      realizes.wf.committed⟩
  rw [applyDone_eq, if_pos still]
  exact ⟨⟨wf.contiguous, wf.compacted, wf.applied, wf.committed⟩, realizes.snapshot, realizes.term,
    realizes.voted, realizes.role, realizes.log, realizes.committed, fun leader =>
      (realizes.leads leader).congr rfl le_rfl rfl rfl rfl,
    realizes.pending⟩

theorem Accounts.agreed (accounts : n.Accounts .free) (realizes : n.Realizes a setting.codec v)
    (positive : 0 < n.lastApplied) {snapshot : Snapshot}
    (taken : n.snapshotAtLocked n.lastApplied = some snapshot) :
    Agreed a snapshot := by
  have compacted := realizes.wf.compacted
  have applied := realizes.wf.applied
  have committed := realizes.wf.committed
  rw [realizes.whole.lastIndex] at committed
  have history : n.history = n.fullLog.take n.lastApplied :=
    accounts.history.trans (List.append_nil _)
  have length : n.history.length = n.lastApplied := by
    rw [history, List.length_take_of_le (by omega)]
  have nonempty : n.history ≠ [] := by
    intro empty
    rw [empty] at length
    simp only [List.length_nil] at length
    omega
  simp only [snapshotAtLocked, Option.map_eq_some_iff] at taken
  rcases taken with ⟨term, found, rfl⟩
  rw [realizes.whole.termAt positive compacted,
    endTerm_take positive (by omega), ← history] at found
  refine ⟨?_, ?_, a.term v, ?_⟩
  · unfold foldOf
    rw [if_neg nonempty, length, ← accounts.folded, Option.some.inj found]
  · simp only [history]
    exact realizes.whole.numbered.take _
  · simp only [history]
    exact realizes.chosen applied

theorem applyDone_agreed (realizes : n.Realizes a setting.codec v)
    (accounts : n.Accounts (.applied entry result)) {snapshot : Snapshot}
    (taken : (n.applyDone cfg entry result).2 = some snapshot) : Agreed a snapshot := by
  have after : (n.applyDone cfg entry result).1.Realizes a setting.codec v :=
    realizes.applyDone accounts
  have idle : (n.applyDone cfg entry result).1.Accounts .free := accounts.applyDone realizes
  unfold Node.applyDone at taken after idle
  split at taken
  · cases taken
  · rename_i still
    rw [if_neg still] at after idle
    simp only at taken after idle
    split at taken
    · rename_i full
      rw [if_pos full] at after idle
      exact idle.agreed after ((Nat.zero_le _).trans_lt full.2.2) taken
    · cases taken

end Apply

section Install

variable {req : InstallSnapshotRequest} {body : Bytes} {disk : Disk}

/-- Memory of a node that has no application in progress, after some moves of the protocol. -/
def Installs (setting : Setting) (v : NodeId) (a : Ideal) (also : Ideal → Prop) (m : Node) : Prop :=
  m.Accounts .free ∧ ∃ b, Reaches setting v a b ∧ m.Realizes b setting.codec v ∧ also b

theorem Installs.mono {also weaker : Ideal → Prop} (installs : Installs setting v a also m)
    (implies : ∀ b, also b → weaker b) : Installs setting v a weaker m := by
  rcases installs with ⟨accounts, b, reach, realizes, holds⟩
  exact ⟨accounts, b, reach, realizes, implies b holds⟩

theorem Accounts.congr (accounts : n.Accounts lock) (same : SameLog n m) (sm : m.sm = n.sm)
    (history : m.history = n.history) : m.Accounts lock := by
  have whole : m.fullLog = n.fullLog := by rw [fullLog, same.snapshot, same.log, fullLog]
  refine ⟨?_, ?_, ?_⟩
  · rw [history, whole, same.applied]
    exact accounts.history
  · rw [sm, history]
    exact accounts.folded
  · rw [same.applied, same.commit, whole]
    exact accounts.next

theorem accounts_installed {snapshot : Snapshot} {log : List LogEntry}
    (folded : snapshot = foldOf snapshot.history)
    (newer : n.lastApplied ≤ snapshot.lastIncludedIndex) (commit : Nat) :
    (n.installed snapshot log commit).Accounts .free := by
  have length : snapshot.history.length = snapshot.lastIncludedIndex := by
    rw [folded]
    rfl
  refine ⟨?_, ?_, nofun⟩
  · have applied : (n.installed snapshot log commit).lastApplied = snapshot.history.length := by
      rw [length]
      exact max_eq_right newer
    have whole : (n.installed snapshot log commit).fullLog = snapshot.history ++ log := rfl
    rw [applied, whole, List.take_left]
    exact (List.append_nil _).symm
  · have restored := restore_foldOf snapshot.history
    rw [← folded] at restored
    exact restored

/-- The only snapshot that an installation saves is that of its request. -/
def SavesOnly (snapshot : Snapshot) : StoreOp → Prop
  | .saveSnapshot saved => saved = snapshot
  | _ => True

theorem saves_agreed {snapshot : Snapshot} (agreed : Agreed a snapshot) {α : Type}
    {program : Program StoreOp α} {post : α → Prop} (saves : program.Does (SavesOnly snapshot) post)
    (found : Agreed a (disk.snapshot.getD {})) :
    program.wp store (fun _ disk => Agreed a (disk.snapshot.getD {}))
      (fun disk => Agreed a (disk.snapshot.getD {})) disk := by
  have written (op : StoreOp) (disk : Disk) (only : SavesOnly snapshot op)
      (found : Agreed a (disk.snapshot.getD {})) :
      Agreed a ((Disk.complete op disk).snapshot.getD {}) := by
    cases op with
    | saveSnapshot saved =>
        obtain rfl : saved = snapshot := only
        exact agreed
    | appendEntries entries =>
        simp only [Disk.complete]
        split <;> exact found
    | saveHardState hs => exact found
    | replaceEntries entries => exact found
    | rewriteWAL baseIndex baseTerm entries => exact found
  refine saves.wp written ?_ found
  intro op reached disk only found
  cases reached with
  | zero => exact (store.torn_zero op disk).symm ▸ found
  | succ reached =>
      cases op with
      | appendEntries entries =>
          simp only [store, Disk.torn]
          split <;> exact found
      | saveSnapshot saved => exact written _ disk only found
      | saveHardState hs => exact found
      | replaceEntries entries => exact found
      | rewriteWAL baseIndex baseTerm entries => exact found

theorem finishInstall_saves {data : Option KVMap} :
    (n.finishInstall cfg req body data).Does (SavesOnly (requestSnapshot req data)) fun _ =>
      True := by
  unfold finishInstall
  simp only
  split
  · trivial
  split
  · trivial
  split
  · simp only [persistInstall, saveHardStateLocked, perform_bind, does_call, if_true]
    exact ⟨rfl, ⟨trivial, ⟨trivial, trivial, trivial⟩, trivial⟩, trivial⟩
  · trivial

theorem installDecoded_saves {data : Option KVMap} :
    (n.installDecoded cfg req body data).Does (SavesOnly (requestSnapshot req data)) fun _ =>
      True := by
  unfold installDecoded
  simp only
  split
  · trivial
  split
  · trivial
  split
  · trivial
  split
  · apply Does.bind
    simp only [becomeFollowerLocked, persistHardStateLocked, saveHardStateLocked, perform_bind,
      does_call, if_true]
    refine ⟨trivial, ?_, trivial⟩
    split <;> exact finishInstall_saves
  · exact finishInstall_saves

theorem installDecoded_attains (realizes : n.Realizes a setting.codec v)
    (inv : Consensus.Inv LogEntry.term setting.Quorum a) (accounts : n.Accounts .free)
    (asked : req.Follows a setting.codec) (durable : Durable disk n.snapshot n) :
    (n.installDecoded cfg req body (some (KVStateMachine.replay ∅ req.history))).wp store
      (fun r disk => Durable disk r.1.snapshot r.1 ∧
        Installs setting v a
          (fun b => r.2.success = true → Acked b v req.term req.lastIncludedIndex) r.1)
      (fun disk => StopsRecovered (Installs setting v a fun _ => True) disk ∧
        Agreed a (disk.snapshot.getD {}))
      disk := by
  have start : Installs setting v a (fun _ => True) n := ⟨accounts, a, .refl inv, realizes, trivial⟩
  have led (m : Node) (installs : Installs setting v a (fun _ => True) m) :
      Installs setting v a (fun _ => True) { m with leaderID := req.leaderID } := by
    rcases installs with ⟨settled, b, reach, now, -⟩
    exact ⟨settled.congr ⟨rfl, rfl, rfl, rfl, rfl⟩ rfl rfl, b, reach,
      now.congr ⟨rfl, rfl, rfl, rfl, rfl⟩ rfl rfl rfl rfl rfl, trivial⟩
  have cleared (m : Node) (installs : Installs setting v a (fun _ => True) m) (leaderID : NodeId) :
      ∃ b, Reaches setting v a b ∧
        Realizes { m with leaderID := leaderID, pendingSnapshot := none } b setting.codec v ∧
          Accounts { m with leaderID := leaderID, pendingSnapshot := none } .free := by
    rcases installs with ⟨settled, b, reach, now, -⟩
    exact ⟨b, reach, now.repend leaderID (by rintro _ ⟨⟩), settled.history,
      settled.folded, by rintro _ ⟨⟩⟩
  have files : (n.installDecoded cfg req body (some (KVStateMachine.replay ∅ req.history))).wp store
      (fun _ disk => Agreed a (disk.snapshot.getD {}))
      (fun disk => Agreed a (disk.snapshot.getD {})) disk := by
    apply saves_agreed asked.agreed installDecoded_saves
    rw [durable.snapshot]
    exact realizes.snapshot
  refine wp_mono _ _ (fun _ _ both => both.1) (fun _ both => both) (wp_and ?_ files)
  refine installDecoded_tracked ?_ durable start ?_ ?_ ?_ ?_ ?_
  · rintro m ⟨-, b, -, now, -⟩
    exact now.wf
  · intro _ _
    have followed : ∃ c, Reaches setting v a c ∧
        (n.steppedDown cfg req.term req.leaderID).Realizes c setting.codec v :=
      realizes.follow (.refl inv) req.term req.leaderID
    rcases followed with ⟨c, reach, down⟩
    refine ⟨accounts.congr (steppedDown_fields n cfg req.term req.leaderID).1 ?_ ?_, c, reach, down,
      trivial⟩
    · rw [steppedDown, followerAt_eq]
      split <;> rfl
    · rw [steppedDown, followerAt_eq]
      split <;> rfl
  · exact fun m installs _ _ => led m installs
  · intro m progress installs role current newer _ _ _
    rcases led m installs with ⟨-, b, reach, now, -⟩
    have folded : requestSnapshot req (some (KVStateMachine.replay ∅ req.history)) =
        foldOf req.history := asked.snapshot
    have applied := now.wf.applied
    have settled : (installed { m with leaderID := req.leaderID }
        (requestSnapshot req (some (KVStateMachine.replay ∅ req.history)))
        (m.logAfterSnapshotLocked
          (requestSnapshot req (some (KVStateMachine.replay ∅ req.history))))
        req.lastIncludedIndex).Accounts .free :=
      accounts_installed folded (applied.trans newer.le) req.lastIncludedIndex
    rcases now.install reach (asked.mono reach.acts.grows) role current newer folded with
      ⟨c, further, done, acked⟩
    exact ⟨⟨settled, c, further, done, trivial⟩, settled, c, further, done, fun _ => acked⟩
  · intro m installs role current old
    rcases cleared m installs req.leaderID with ⟨b, reach, now, settled⟩
    rcases now.stale reach (asked.mono reach.acts.grows) role current old with
      ⟨c, further, held, acked⟩
    exact ⟨settled, c, further, held, fun _ => acked⟩
  · intro m installs
    rcases cleared m installs m.leaderID with ⟨b, reach, now, settled⟩
    exact ⟨installs.mono (fun _ _ => by rintro ⟨⟩), settled, b, reach, now, by rintro ⟨⟩⟩

end Install

section Compaction

variable {snapshot : Snapshot}

theorem Realizes.ready (inv : Consensus.Inv LogEntry.term setting.Quorum a)
    (realizes : n.Realizes a setting.codec v) (agreed : Agreed a snapshot)
    (worth : n.worthPersisting snapshot = true) : n.Ready snapshot := by
  refine ⟨worth, ?_⟩
  simp only [worthPersisting, decide_eq_true_eq] at worth
  have applied := realizes.wf.applied
  have committed := realizes.wf.committed
  rw [realizes.whole.lastIndex] at committed
  have history := realizes.history inv agreed (worth.2.trans applied)
  have term : snapshot.lastIncludedTerm = endTerm snapshot.history := by
    rw [agreed.folded]
    rfl
  rw [realizes.whole.termAt (by omega) worth.1.le, endTerm_take (by omega) (by omega), ← history,
    term]

theorem Realizes.compactedLog (inv : Consensus.Inv LogEntry.term setting.Quorum a)
    (realizes : n.Realizes a setting.codec v) (agreed : Agreed a snapshot)
    (worth : n.worthPersisting snapshot = true) :
    (n.compacted snapshot).fullLog = n.fullLog :=
  realizes.recoveredLog inv agreed (Or.inr (realizes.ready inv agreed worth))

theorem Realizes.compacted (inv : Consensus.Inv LogEntry.term setting.Quorum a)
    (realizes : n.Realizes a setting.codec v) (agreed : Agreed a snapshot)
    (worth : n.worthPersisting snapshot = true) :
    (n.compacted snapshot).Realizes a setting.codec v := by
  have log := realizes.compactedLog inv agreed worth
  have wf : WellFormed (n.compacted snapshot) := (upholds_compact realizes.wf worth).wellFormed
  refine ⟨wf, agreed, realizes.term, realizes.voted, realizes.role, realizes.log.trans log.symm,
    ?_, ?_, realizes.pending⟩
  · rw [log]
    exact realizes.committed
  · intro leader
    exact (realizes.leads leader).congr log le_rfl rfl rfl rfl

theorem Accounts.compacted (accounts : n.Accounts lock)
    (log : (n.compacted snapshot).fullLog = n.fullLog) :
    (n.compacted snapshot).Accounts lock := by
  refine ⟨?_, accounts.folded, ?_⟩
  · rw [log]
    exact accounts.history
  · rw [log]
    exact accounts.next

end Compaction

end Node

end GoRaftKV.Raft
