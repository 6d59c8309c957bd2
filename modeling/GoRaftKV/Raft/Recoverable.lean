import GoRaftKV.Raft.Tracking

namespace GoRaftKV.Raft

open Storage Library Program

/-- A snapshot of applied entries; unless it is already compacted away, its boundary is in the
log. -/
def Node.Captured (n : Node) (snapshot : Snapshot) : Prop :=
  snapshot.lastIncludedIndex ≤ n.lastApplied ∧
    (n.snapshot.lastIncludedIndex < snapshot.lastIncludedIndex →
      n.termAtLocked snapshot.lastIncludedIndex = some snapshot.lastIncludedTerm)

/-- A snapshot that `persistSnapshot` is about to make memory's own. -/
def Node.Ready (n : Node) (snapshot : Snapshot) : Prop :=
  n.worthPersisting snapshot = true ∧
    n.termAtLocked snapshot.lastIncludedIndex = some snapshot.lastIncludedTerm

def Proc.base (p : Proc) : Snapshot :=
  match p.persistMu with
  | .saved snapshot => snapshot
  | _ => p.node.snapshot

/-- Files and memory of a running process agree. -/
structure Proc.Saved (disk : Disk) (p : Proc) : Prop where
  wf : WellFormed p.node
  files : Durable disk p.base p.node
  pending : ∀ snapshot, p.persistMu = .checked snapshot ∨ p.persistMu = .saved snapshot →
    p.node.Ready snapshot
  captured : ∀ snapshot ∈ p.captured, p.node.Captured snapshot

namespace Node

variable {n m : Node} {snapshot : Snapshot}

theorem Captured.upheld (captured : n.Captured snapshot) (wf : WellFormed n)
    (upholds : n.Upholds m) :
    m.Captured snapshot := by
  refine ⟨captured.1.trans upholds.applied, fun later => ?_⟩
  have earlier := upholds.compacted.trans_lt later
  have applied := wf.applied
  have reached := captured.1
  rw [termAtLocked_of_gt later, upholds.kept _ later (by omega), ← termAtLocked_of_gt earlier]
  exact captured.2 earlier

theorem Ready.upheld (ready : n.Ready snapshot) (wf : WellFormed n) (upholds : n.Upholds m)
    (same : m.snapshot = n.snapshot) : m.Ready snapshot := by
  obtain ⟨worth, boundary⟩ := ready
  simp only [worthPersisting, decide_eq_true_eq] at worth
  have captured := Captured.upheld ⟨worth.2, fun _ => boundary⟩ wf upholds
  have later : m.snapshot.lastIncludedIndex < snapshot.lastIncludedIndex := by
    rw [same]
    exact worth.1
  refine ⟨?_, captured.2 later⟩
  simp only [worthPersisting, decide_eq_true_eq]
  exact ⟨later, captured.1⟩

theorem Splice.mergeEnd {cfg : Config} {k : Node} {req : AppendEntriesRequest} {keep : Nat}
    {result : MergeEntriesResult} {rest : List LogEntry} (reached : Moves cfg n k)
    (wf : WellFormed k) (follows : k.role = .follower)
    (splice : Splice k (k.requestEnd req) m result keep rest) :
    MergeEnd (Moves cfg n) (fun r => Moves cfg n r.1) k req m rest result.replaced := by
  have merged : Moves cfg n m := reached.trans (splice.moves follows)
  have last := splice.last wf
  have reaches := splice.reaches
  have committed := wf.committed
  refine ⟨merged, fun appended count => ?_, fun later => ?_, fun _ => merged⟩
  · have whole := (splice.appended appended).1
    have next := splice.next.take count
    rw [whole] at next
    have move : Move cfg k { k with log := k.log.take k.log.length ++ rest.take count } :=
      .merge k k.log.length (rest.take count) follows le_rfl
        (by rw [← lastIndexLocked_eq wf.contiguous]; exact committed) next
    rw [List.take_length] at move
    exact reached.tail move
  · have advanced :=
      merged.tail (Move.commit m (min req.leaderCommit (k.requestEnd req)) later.le (by omega))
    exact ⟨advanced, advanced⟩

theorem applyDone_captured {cfg : Config} {entry : LogEntry} {result : ApplyResult}
    (taken : (n.applyDone cfg entry result).2 = some snapshot) :
    (n.applyDone cfg entry result).1.Captured snapshot := by
  unfold applyDone at taken ⊢
  split at taken
  · cases taken
  · rename_i still
    rw [if_neg still]
    simp only at taken ⊢
    split at taken
    · rename_i full
      rw [if_pos full]
      simp only [snapshotAtLocked, Option.map_eq_some_iff] at taken
      obtain ⟨term, found, rfl⟩ := taken
      exact ⟨le_rfl, fun _ => found⟩
    · cases taken

theorem applyDone_next {cfg : Config} {entry : LogEntry} {result : ApplyResult}
    (taken : (n.applyDone cfg entry result).2 = some snapshot) :
    snapshot.lastIncludedIndex = n.lastApplied + 1 := by
  unfold applyDone at taken
  split at taken
  · cases taken
  · rename_i still
    simp only [Bool.not_eq_false, stillApplies, decide_eq_true_eq] at still
    simp only at taken
    split at taken
    · simp only [snapshotAtLocked, Option.map_eq_some_iff] at taken
      rcases taken with ⟨term, -, rfl⟩
      exact still.1
    · cases taken

end Node

theorem Node.Covers.bounds {k : Node} {base : Snapshot} (covers : k.Covers base)
    (wf : WellFormed k) :
    k.snapshot.lastIncludedIndex ≤ base.lastIncludedIndex ∧
      base.lastIncludedIndex ≤ k.commitIndex := by
  have applied := wf.applied
  rcases covers with own | ⟨worth, -⟩
  · have compacted := wf.compacted
    rw [own]
    omega
  · simp only [Node.worthPersisting, decide_eq_true_eq] at worth
    omega

/-- `Load` accepts the directory, and the log it returns continues the snapshot. -/
def Loadable (disk : Disk) : Prop :=
  ∃ loaded, disk.load = .ok loaded ∧ Contiguous loaded.snapshot.lastIncludedIndex loaded.entries

theorem Recovers.loadable {disk : Disk} {k : Node} (recovers : Recovers disk k)
    (wf : WellFormed k) :
    Loadable disk := by
  rcases recovers with ⟨base, commit, rewrite, covers, -, loads⟩
  refine ⟨_, loads, ?_⟩
  have after := (covers.bounds wf).1
  rw [wf.contiguous.filter_lt after]
  have rest := wf.contiguous.drop (base.lastIncludedIndex - k.snapshot.lastIncludedIndex)
  rwa [Nat.add_sub_cancel' after] at rest

namespace Proc

variable {cfg : Config} {disk : Disk} {p : Proc}

theorem Saved.covers (saved : p.Saved disk) : p.node.Covers p.base := by
  unfold base
  cases lock : p.persistMu with
  | saved snapshot => exact Or.inr (saved.pending snapshot (Or.inr lock))
  | free => exact Or.inl rfl
  | checked snapshot => exact Or.inl rfl
  | decoding call req body => exact Or.inl rfl

theorem Saved.moved {after : Disk} {m : Node} (saved : p.Saved disk) (upholds : p.node.Upholds m)
    (same : m.snapshot = p.node.snapshot) (files : Durable after p.base m) :
    Saved after { p with node := m } where
  wf := upholds.wellFormed
  files := by
    have base : base { p with node := m } = p.base := by
      unfold Proc.base
      simp only [same]
    rw [base]
    exact files
  pending := fun snapshot lock => (saved.pending snapshot lock).upheld saved.wf upholds same
  captured := fun snapshot member => (saved.captured snapshot member).upheld saved.wf upholds

theorem Saved.relock {lock : PersistLock} {apply : ApplyLock} {captured : List Snapshot}
    (saved : p.Saved disk)
    (base : base { p with persistMu := lock, applyMu := apply, captured := captured } = p.base)
    (pending : ∀ snapshot, lock = .checked snapshot ∨ lock = .saved snapshot →
      p.node.Ready snapshot)
    (kept : ∀ snapshot ∈ captured, p.node.Captured snapshot) :
    Saved disk { p with persistMu := lock, applyMu := apply, captured := captured } where
  wf := saved.wf
  files := by
    rw [base]
    exact saved.files
  pending := pending
  captured := kept

theorem Saved.load (saved : p.Saved disk) :
    ∃ loaded, disk.load = .ok loaded ∧
      loaded.hardState = ⟨p.node.currentTerm, p.node.votedFor, p.node.commitIndex⟩ ∧
      p.node.snapshot.lastIncludedIndex ≤ loaded.snapshot.lastIncludedIndex ∧
      loaded.snapshot.lastIncludedIndex ≤ p.node.lastApplied ∧
      loaded.entries =
        p.node.log.filter fun entry => loaded.snapshot.lastIncludedIndex < entry.index := by
  obtain ⟨rewrite, loads⟩ := saved.files.load saved.wf saved.covers
  refine ⟨_, loads, rfl, ?_, ?_, rfl⟩
  · rcases saved.covers with same | ⟨worth, -⟩
    · rw [same]
    · simp only [Node.worthPersisting, decide_eq_true_eq] at worth
      exact worth.1.le
  · rcases saved.covers with same | ⟨worth, -⟩
    · rw [same]
      exact saved.wf.compacted
    · simp only [Node.worthPersisting, decide_eq_true_eq] at worth
      exact worth.2

end Proc

/-- `persistSnapshot` is between its two writes. -/
def Proc.rewriting (p : Proc) : Bool :=
  match p.persistMu with
  | .saved _ => true
  | _ => false

/-- The entries that a request brings. -/
def Action.entries : Action → List LogEntry
  | .appendEntries req => req.entries
  | _ => []

/-- The indexes that a message or an acknowledged request brings to a section. -/
def Action.indexes : Action → List Nat
  | .appendEntries req => req.prevLogIndex :: req.entries.map LogEntry.index
  | .installSnapshot _ req => [req.lastIncludedIndex]
  | .replicateReply _ req _ => [req.prevLogIndex + req.entries.length]
  | .snapshotSent _ _ snapIdx => [snapIdx]
  | _ => []

namespace Host

variable {cfg : Config} {codec : SnapshotCodec} {host : Host} {p q : Proc} {fates : List Fate}

/-- Files and memory agree, or the machine is down and can be restarted. -/
structure Safe (host : Host) : Prop where
  saved : ∀ p, host.proc = some p → p.Saved host.disk
  loadable : host.proc = none → Loadable host.disk

/-- `Load` succeeds on its files after a crash at any time. -/
theorem Safe.load (safe : host.Safe) : Loadable host.disk := by
  cases live : host.proc with
  | none => exact safe.loadable live
  | some p =>
      have saved := safe.saved p live
      exact (Backed.recovers ⟨saved.covers, saved.files⟩ saved.wf).loadable saved.wf

theorem Safe.running {disk : Disk} {chans : Nat} (saved : q.Saved disk) :
    Safe ⟨disk, some q, chans⟩ where
  saved := by
    rintro _ ⟨⟩
    exact saved
  loadable := by rintro ⟨⟩

theorem Safe.down {disk : Disk} {chans : Nat} (loadable : Loadable disk) :
    Safe ⟨disk, none, chans⟩ where
  saved := by rintro _ ⟨⟩
  loadable := fun _ => loadable

theorem run_safe {α : Type} {program : Program StoreOp α} {post : α → Disk → Prop}
    {crash : Disk → Prop} {finish : α → Host × Output}
    (tracked : program.wp store post crash host.disk) (errorless : Errorless fates)
    (done : ∀ value disk, post value disk → Safe { (finish value).1 with disk := disk })
    (stopped : ∀ disk, crash disk → Loadable disk) : (host.run program fates finish).1.Safe := by
  have meets := wp_exec program host.disk fates tracked errorless
  unfold run
  cases ending : program.exec store host.disk fates with
  | done value disk =>
      rw [ending] at meets
      exact done value disk meets
  | crashed disk =>
      rw [ending] at meets
      exact .down (stopped disk meets)

theorem moves_loadable {disk : Disk} (wf : WellFormed p.node)
    (stops : Stops (Backed p.base) (Node.Moves cfg p.node) disk) : Loadable disk := by
  rcases stops with ⟨k, moves, backed⟩
  have sound := (moves.upholds wf).wellFormed
  exact (backed.recovers sound).loadable sound

theorem run_moved {α : Type} {program : Program StoreOp α} (memory : α → Node)
    {finish : α → Host × Output} (saved : p.Saved host.disk)
    (tracked : program.wp store
      (fun value disk => Backed p.base disk (memory value) ∧ Node.Moves cfg p.node (memory value))
      (Stops (Backed p.base) (Node.Moves cfg p.node)) host.disk)
    (errorless : Errorless fates)
    (proc : ∀ value, (finish value).1.proc = some { p with node := memory value }) :
    (host.run program fates finish).1.Safe := by
  apply run_safe tracked errorless
  · rintro value disk ⟨backed, moves⟩
    have moved := saved.moved (moves.upholds saved.wf) moves.snapshot backed.2
    have alive := proc value
    generalize (finish value).1 = next at alive ⊢
    rcases next with ⟨_, _, chans⟩
    cases alive
    exact .running moved
  · exact fun disk stops => moves_loadable saved.wf stops

/-- No request conflicts with the log while `persistSnapshot` has saved its snapshot but not yet
rewritten the WAL. -/
def Undisturbed (host : Host) (action : Action) : Prop :=
  ∀ p ∈ host.proc, p.rewriting = true → p.node.spliced action.entries = []

instance (host : Host) (action : Action) : Decidable (host.Undisturbed action) := by
  unfold Undisturbed
  infer_instance

/-- No call fails, no request splices a covered entry or comes in between, and the indexes stay
where `uint64` does not wrap around. -/
structure Calm (host : Host) (fates : List Fate) (action : Action) : Prop where
  errorless : Errorless fates
  ordered : ∀ req p, action = .appendEntries req → host.proc = some p →
    p.node.SpliceSafe req.entries
  undisturbed : host.Undisturbed action
  received : ∀ index ∈ action.indexes, index + 2 < uint64Size
  held : ∀ p, host.proc = some p → p.node.lastIndexLocked + 2 < uint64Size

theorem appendEntries_saved {req : AppendEntriesRequest} (saved : p.Saved host.disk)
    (live : host.proc = some p) (ordered : p.node.SpliceSafe req.entries)
    (undisturbed : host.Undisturbed (.appendEntries req)) :
    (p.node.handleAppendEntries cfg req).wp store
      (fun r disk => Backed p.base disk r.1 ∧ Node.Moves cfg p.node r.1)
      (Stops (Backed p.base) (Node.Moves cfg p.node)) host.disk := by
  have backed : Backed p.base host.disk p.node := ⟨saved.covers, saved.files⟩
  refine Node.handleAppendEntries_tracked (backed_tracks p.base) saved.wf ordered backed
    .refl ?_ ?_ ?_ ?_ ?_
  · exact fun _ _ => .single (.follow _ _ _)
  · exact fun m reached _ _ => reached.trans (Node.setLeader_moves req.leaderID)
  · intro disk k m result keep rest _ files tracked conflict splice
    -- Outside the gap the WAL gets memory's own base.
    have own : p.base = k.snapshot := by
      rw [files.snapshot]
      unfold Proc.base
      split
      · rename_i snapshot lock
        have gap : p.rewriting = true := by
          unfold Proc.rewriting
          rw [lock]
        exact absurd (undisturbed p live gap) conflict
      · rfl
    have contiguous := saved.wf.contiguous
    rw [← files.snapshot, ← files.log] at contiguous
    exact tracked.rewritten own contiguous splice
  · exact fun k m result keep rest reached role _ _ _ _ splice =>
      splice.mergeEnd reached (reached.upholds saved.wf).wellFormed role
  · exact fun m resp reached _ _ => reached

theorem propose_saved {command : Command} {chan : ChanId} (saved : p.Saved host.disk) :
    (p.node.proposeAppend cfg command chan).wp store
      (fun r disk => Backed p.base disk r.1 ∧
        (p.node.Upholds r.1 ∧ r.1.snapshot = p.node.snapshot) ∧ True)
      (Stops (Backed p.base) fun m => p.node.Upholds m ∧ m.snapshot = p.node.snapshot)
        host.disk := by
  have backed : Backed p.base host.disk p.node := ⟨saved.covers, saved.files⟩
  have accepted := Node.Upholds.snoc (m := p.node.accepted cfg
    { index := p.node.lastIndexLocked + 1, term := p.node.currentTerm, command := command } chan)
    saved.wf rfl rfl rfl rfl rfl
  refine @Node.proposeAppend_tracked _ (backed_tracks p.base)
    (fun m => p.node.Upholds m ∧ m.snapshot = p.node.snapshot) cfg _ _ command chan (fun _ => True)
    saved.wf backed ?_ ?_ ?_ ?_ ?_
  · exact ⟨.refl saved.wf, rfl⟩
  · exact fun _ => ⟨accepted, rfl⟩
  · intro m index reached _ target
    obtain ⟨later, bound, -⟩ := Node.commitTarget_some target
    have move : Node.Move cfg m { m with commitIndex := index } := .commit m index later.le bound
    exact ⟨reached.1.trans (move.upholds reached.1.wellFormed), reached.2⟩
  · exact fun _ _ => trivial
  · exact fun _ => trivial

theorem installDecoded_saved {disk : Disk} {n : Node} {req : InstallSnapshotRequest} {body : Bytes}
    {data : Option KVMap} (wf : WellFormed n) (files : Durable disk n.snapshot n) :
    (n.installDecoded cfg req body data).wp store
      (fun r disk => Durable disk r.1.snapshot r.1 ∧ n.Upholds r.1) (StopsRecovered n.Upholds)
        disk := by
  refine Node.installDecoded_tracked (fun _ reached => reached.wellFormed) files (.refl wf) ?_ ?_
    ?_ ?_ ?_
  · exact fun _ _ => (Node.Move.follow n req.term req.leaderID).upholds wf
  · exact fun m reached _ _ => reached.trans (.of_same reached.wellFormed rfl rfl rfl rfl)
  · intro m progress reached _ _ newer _ _ _
    have led : n.Upholds { m with leaderID := req.leaderID } :=
      reached.trans (.of_same reached.wellFormed rfl rfl rfl rfl)
    have later : m.commitIndex < (Node.requestSnapshot req data).lastIncludedIndex := newer
    have installed := led.trans (Node.upholds_install led.wellFormed later)
    exact ⟨installed, installed⟩
  · exact fun m reached _ _ _ => reached.trans (.of_same reached.wellFormed rfl rfl rfl rfl)
  · exact fun m reached => ⟨reached, reached.trans (.of_same reached.wellFormed rfl rfl rfl rfl)⟩

theorem step_safe {action : Action} (live : host.proc = some p) (saved : p.Saved host.disk)
    (errorless : Errorless fates)
    (ordered : ∀ req, action = .appendEntries req → p.node.SpliceSafe req.entries)
    (undisturbed : host.Undisturbed action) : (p.step cfg codec host fates action).1.Safe := by
  have tracks := backed_tracks p.base
  have backed : Backed p.base host.disk p.node := ⟨saved.covers, saved.files⟩
  have load : Loadable host.disk := (backed.recovers saved.wf).loadable saved.wf
  have idle : host.Safe := by
    refine ⟨fun q alive => ?_, fun down => ?_⟩
    · cases live.symm.trans alive
      exact saved
    · cases live.symm.trans down
  have unwritten (m : Node) (moves : Node.Moves cfg p.node m) (files : SameFiles p.node m)
      (hardState : m.hardState m.commitIndex = p.node.hardState p.node.commitIndex) :
      Proc.Saved host.disk { p with node := m } :=
    saved.moved (moves.upholds saved.wf) moves.snapshot (tracks.same backed files hardState).2
  have commit (m : Node) (index : Nat) (reached : Node.Moves cfg p.node m) (_ : m.role = .leader)
      (target : m.commitTarget cfg m.lastIndexLocked = some index) :
      Node.Moves cfg p.node { m with commitIndex := index } := by
    obtain ⟨later, bound, -⟩ := Node.commitTarget_some target
    exact reached.tail (.commit m index later.le bound)
  cases action with
  | requestVote req =>
      refine run_moved Prod.fst saved (Node.handleRequestVote_tracked tracks backed .refl
        (fun _ => .single (.follow _ _ _)) ?_ fun m reached => reached) errorless fun _ => rfl
      intro m reached _ _ undecided _
      have voted := reached.tail (.vote m req.candidateID undecided)
      exact ⟨voted, voted⟩
  | appendEntries req =>
      exact run_moved Prod.fst saved (appendEntries_saved saved live (ordered req rfl) undisturbed)
        errorless
        fun _ => rfl
  | installSnapshot call req =>
      simp only [Proc.step]
      split
      · rename_i free
        have tracked : (p.node.handleInstallSnapshot cfg req).wp store
            (fun r disk => Backed p.base disk r.1 ∧ Node.Moves cfg p.node r.1)
            (Stops (Backed p.base) (Node.Moves cfg p.node)) host.disk :=
          Node.handleInstallSnapshot_tracked tracks backed .refl
            (fun _ _ => .single (.follow _ _ _))
            (fun m reached _ _ => reached.trans (Node.collectChunk_moves req)) .refl
        apply run_safe tracked errorless
        · rintro ⟨m, progress⟩ disk ⟨after, moves⟩
          have moved := saved.moved (moves.upholds saved.wf) moves.snapshot after.2
          cases progress with
          | answer resp => exact .running moved
          | decode body =>
              refine .running (moved.relock ?_ ?_ moved.captured)
              · simp only [Proc.base, free]
              · rintro snapshot (lock | lock) <;> cases lock
        · exact fun disk stops => moves_loadable saved.wf stops
      · exact idle
  | installDecoded =>
      simp only [Proc.step]
      split
      · rename_i call req body held
        have own : p.base = p.node.snapshot := by simp only [Proc.base, held]
        split
        · have moved := unwritten { p.node with pendingSnapshot := none } Node.clearPending_moves
            ⟨rfl, rfl, rfl⟩ rfl
          refine .running (moved.relock ?_ ?_ moved.captured)
          · simp only [Proc.base, held]
          · rintro snapshot (lock | lock) <;> cases lock
        · rename_i data decoded
          split
          · have files := saved.files
            rw [own] at files
            apply run_safe (installDecoded_saved saved.wf files) errorless
            · rintro ⟨m, resp⟩ disk ⟨after, upholds⟩
              exact .running
                { wf := upholds.wellFormed
                  files := after
                  pending := by rintro snapshot (lock | lock) <;> cases lock
                  captured := fun snapshot member =>
                    (saved.captured snapshot member).upheld saved.wf upholds }
            · rintro disk ⟨k, upholds, recovers⟩
              exact recovers.loadable upholds.wellFormed
          · exact idle
      · exact idle
  | propose command =>
      apply run_safe (propose_saved saved) errorless
      · rintro r disk ⟨after, ⟨upholds, same⟩, -⟩
        exact .running (saved.moved upholds same after.2)
      · rintro disk ⟨k, ⟨upholds, -⟩, after⟩
        exact (after.recovers upholds.wellFormed).loadable upholds.wellFormed
  | cancel index chan =>
      exact .running (unwritten _ (.single (.cancel p.node index chan)) ⟨rfl, rfl, rfl⟩ rfl)
  | startElection =>
      exact run_moved Prod.fst saved (Node.startElection_tracked tracks backed .refl
        (fun idle _ => ⟨.single (.stand p.node idle), .single (.stand p.node idle)⟩) .refl)
          errorless
        fun _ => rfl
  | becomeLeader term =>
      exact run_moved id saved (Node.becomeLeader_tracked tracks saved.wf backed .refl
        (fun standing _ => .head (.lead p.node standing) (.single (.noop _ _ rfl rfl))) commit)
          errorless
        fun _ => rfl
  | stepDown term leaderID =>
      exact run_moved Prod.fst saved
        (Node.stepDown_tracked tracks backed .refl (.single (.follow _ _ _))) errorless
        fun _ => rfl
  | replicate peer =>
      refine .running
        (unwritten (p.node.replicateToPeer cfg peer).1 (Node.replicateToPeer_moves peer) ?_ ?_)
      · obtain ⟨⟨nextIndex, same⟩, -⟩ := Node.replicateToPeer_eq p.node cfg peer
        rw [same]
        exact ⟨rfl, rfl, rfl⟩
      · obtain ⟨⟨nextIndex, same⟩, -⟩ := Node.replicateToPeer_eq p.node cfg peer
        rw [same]
        rfl
  | replicateReply peer req resp =>
      exact run_moved Prod.fst saved (Node.replicateReply_tracked tracks backed .refl
        (fun _ => .single (.follow _ _ _)) (fun _ _ _ => Node.acknowledge_moves peer _)
        (fun _ nextIndex => Node.setNextIndex_moves nextIndex) commit) errorless fun _ => rfl
  | snapshotReply term resp =>
      exact run_moved Prod.fst saved
        (Node.sendSnapshotReply_tracked tracks backed .refl fun _ => .single (.follow _ _ _))
        errorless
        fun _ => rfl
  | snapshotSent peer term snapIdx =>
      refine .running (unwritten (p.node.snapshotSent peer term snapIdx)
        (Node.snapshotSent_moves peer term snapIdx) ?_ ?_)
      · unfold Node.snapshotSent
        split <;> exact ⟨rfl, rfl, rfl⟩
      · unfold Node.snapshotSent
        split <;> rfl
  | applyNext =>
      simp only [Proc.step, Node.applyNext_eq saved.wf]
      split
      · split
        · rename_i m none
          simp only [Prod.mk.injEq] at none
          obtain ⟨rfl, -⟩ := none
          exact .running saved
        · rename_i m entry found
          simp only [Prod.mk.injEq] at found
          obtain ⟨rfl, -⟩ := found
          exact .running (saved.relock rfl saved.pending saved.captured)
      · exact idle
  | applyEntry =>
      simp only [Proc.step]
      split
      · rename_i entry applying
        have moved := saved.moved (m := (p.node.applyEntry entry).1)
          (.of_same saved.wf rfl rfl rfl rfl) rfl (saved.files.of_same rfl rfl rfl)
        exact .running (moved.relock rfl moved.pending moved.captured)
      · exact idle
  | applyDone =>
      simp only [Proc.step]
      split
      · rename_i entry result applied
        have upholds : p.node.Upholds (p.node.applyDone cfg entry result).1 := by
          rw [Node.applyDone_eq]
          split
          · rename_i still
            exact Node.upholds_applied saved.wf still
          · exact .refl saved.wf
        have same : (p.node.applyDone cfg entry result).1.hardState
              (p.node.applyDone cfg entry result).1.commitIndex =
              p.node.hardState p.node.commitIndex ∧
            (p.node.applyDone cfg entry result).1.snapshot = p.node.snapshot ∧
            (p.node.applyDone cfg entry result).1.log = p.node.log := by
          rw [Node.applyDone_eq]
          split <;> exact ⟨rfl, rfl, rfl⟩
        have moved := saved.moved upholds same.2.1 (saved.files.of_same same.1 same.2.1 same.2.2)
        refine .running (moved.relock rfl moved.pending fun snapshot member => ?_)
        rcases List.mem_append.mp member with old | new
        · exact moved.captured snapshot old
        · exact Node.applyDone_captured (Option.mem_toList.mp new)
      · exact idle
  | persistCheck position =>
      simp only [Proc.step]
      split
      · rename_i snapshot free found
        have rest : ∀ other ∈ p.captured.eraseIdx position, p.node.Captured other :=
          fun other member => saved.captured other (List.mem_of_mem_eraseIdx member)
        split
        · rename_i worth
          refine .running (saved.relock ?_ ?_ rest)
          · simp only [Proc.base, free]
          · rintro other (lock | lock) <;> cases lock
            have captured := saved.captured snapshot (List.mem_of_getElem? found)
            have later := worth
            simp only [Node.worthPersisting, decide_eq_true_eq] at later
            exact ⟨worth, captured.2 later.1⟩
        · exact .running (saved.relock rfl saved.pending rest)
      · exact idle
  | persistSave =>
      simp only [Proc.step]
      split
      · rename_i snapshot checked
        have ready := saved.pending snapshot (Or.inl checked)
        have written : Durable { host.disk with snapshot := some snapshot } snapshot p.node :=
          ⟨saved.files.hardState, rfl, saved.files.records⟩
        have tracked : (perform (StoreOp.saveSnapshot snapshot)).wp store
            (fun ok disk => ok = true ∧ disk = { host.disk with snapshot := some snapshot })
            Loadable host.disk :=
          wp_renamed (fun _ => rfl) ⟨rfl, rfl⟩ load
            ((Backed.recovers ⟨Or.inr ready, written⟩ saved.wf).loadable saved.wf)
        apply run_safe tracked errorless
        · rintro ok disk ⟨rfl, rfl⟩
          exact .running
            { wf := saved.wf
              files := written
              pending := by
                rintro other (lock | lock) <;> cases lock
                exact ready
              captured := saved.captured }
        · exact fun disk loadable => loadable
      · exact idle
  | persistEnd =>
      simp only [Proc.step]
      split
      · rename_i snapshot held
        have own : p.base = snapshot := by simp only [Proc.base, held]
        have ready := saved.pending snapshot (Or.inr held)
        have files := saved.files
        rw [own] at files
        have upholds := Node.upholds_compact saved.wf ready.1
        have compacted (disk : Disk) (durable : Durable disk snapshot (p.node.compacted snapshot)) :
            Loadable disk :=
          (Backed.recovers ⟨Or.inl rfl, durable⟩ upholds.wellFormed).loadable upholds.wellFormed
        apply run_safe (Node.compact_tracked saved.wf ready.1 files.snapshot files.hardState load
          compacted) errorless
        · rintro m disk ⟨rfl, after⟩
          exact .running
            { wf := upholds.wellFormed
              files := after
              pending := by rintro other (lock | lock) <;> cases lock
              captured :=
                fun other member => (saved.captured other member).upheld saved.wf upholds }
        · exact fun disk loadable => loadable
      · exact idle
  | stop =>
      refine .running (unwritten p.node.stop (.single (.stop p.node)) ?_ ?_)
      · unfold Node.stop
        split <;> exact ⟨rfl, rfl, rfl⟩
      · unfold Node.stop
        split <;> rfl
  | crash => exact .down load
  | restart => exact idle

theorem newNode_tracked {disk : Disk} {loaded : Loaded} {crash : Disk → Prop}
    (loads : disk.load = .ok loaded)
    (contiguous : Contiguous loaded.snapshot.lastIncludedIndex loaded.entries) (before : crash disk)
    (rewritten : crash { disk with wal := some (walImage loaded.snapshot.lastIncludedIndex
      loaded.snapshot.lastIncludedTerm loaded.entries) })
    (after : ∀ disk, Durable disk loaded.snapshot (Node.restored loaded) → crash disk) :
    (Node.newNode loaded).wp store
      (fun result disk => result = some (Node.restored loaded) ∧
        Durable disk loaded.snapshot (Node.restored loaded)) crash disk := by
  obtain ⟨snapshot, hardState, records⟩ := Disk.load_records loads
  have persisted (disk : Disk) (hardState : disk.hardState.getD {} = loaded.hardState)
      (snapshot : disk.snapshot.getD {} = loaded.snapshot)
      (records : Records disk.wal loaded.snapshot loaded.entries) (before : crash disk) :
      (if loaded.hardState.commitIndex ≠ (Node.restored loaded).commitIndex then
        (do if ← (Node.restored loaded).persistHardStateLocked
            then pure (some (Node.restored loaded))
            else pure none)
        else pure (some (Node.restored loaded)) : Program StoreOp (Option Node)).wp store
        (fun result disk => result = some (Node.restored loaded) ∧
          Durable disk loaded.snapshot (Node.restored loaded)) crash disk := by
    split
    · simp only [Node.persistHardStateLocked, Node.saveHardStateLocked, perform_bind]
      have written : Durable { disk with hardState := some ((Node.restored loaded).hardState
          (Node.restored loaded).commitIndex) } loaded.snapshot (Node.restored loaded) :=
            ⟨rfl, snapshot, records⟩
      exact wp_saveHardState ⟨rfl, written⟩ before (after _ written)
    · rename_i same
      refine ⟨rfl, ?_, snapshot, records⟩
      rw [hardState, Node.hardState, ← not_not.mp same]
      rfl
  unfold Node.newNode
  simp only
  split
  · simp only [perform_bind]
    refine wp_renamed (fun _ => rfl) ?_ before rewritten
    exact persisted _ hardState snapshot (records_image contiguous) rewritten
  · rename_i kept
    exact persisted disk hardState snapshot (records (by simpa using kept)) before

/-- A restart on a directory that `Load` accepts. -/
theorem restart_safe (down : host.proc = none) (loadable : Loadable host.disk)
    (errorless : Errorless fates) :
    (host.step cfg codec fates .restart).1.Safe := by
  obtain ⟨loaded, loads, contiguous⟩ := loadable
  have wf := restored_wellFormed contiguous
  have image : Loadable { host.disk with wal := some (walImage loaded.snapshot.lastIncludedIndex
      loaded.snapshot.lastIncludedTerm loaded.entries) } :=
    ⟨_, Disk.load_image contiguous (Disk.load_records loads).1, contiguous⟩
  have durable (disk : Disk) (files : Durable disk loaded.snapshot (Node.restored loaded)) :
      Loadable disk :=
    (Backed.recovers ⟨Or.inl rfl, files⟩ wf).loadable wf
  simp only [Host.step, down, loads]
  apply run_safe (newNode_tracked loads contiguous ⟨loaded, loads, contiguous⟩ image durable)
    errorless
  · rintro result disk ⟨rfl, files⟩
    exact .running
      { wf := wf
        files := files
        pending := by rintro other (lock | lock) <;> cases lock
        captured := by simp }
  · exact fun disk loadable => loadable

theorem Safe.step {action : Action} (safe : host.Safe) (errorless : Errorless fates)
    (ordered : ∀ req p, action = .appendEntries req → host.proc = some p →
      p.node.SpliceSafe req.entries)
    (undisturbed : host.Undisturbed action) : (host.step cfg codec fates action).1.Safe := by
  cases live : host.proc with
  | none =>
      by_cases restarts : action = .restart
      · subst restarts
        exact restart_safe live (safe.loadable live) errorless
      · rw [step_down live restarts]
        exact safe
  | some p =>
      have running : host.step cfg codec fates action = p.step cfg codec host fates action := by
        unfold Host.step
        rw [live]
      rw [running]
      exact step_safe live (safe.saved p live) errorless (fun req same => ordered req p same live)
        undisturbed

theorem Run.safe {start final : Host} (run : Run cfg codec Calm start final) (safe : start.Safe) :
    final.Safe := by
  induction run with
  | refl => exact safe
  | tail _ step ih =>
      cases step with
      | event fates action calm => exact ih.step calm.errorless calm.ordered calm.undisturbed

/-- In a calm run a crash loses nothing: `Load` succeeds and returns the hard state, a snapshot
between memory's and the applied index, and exactly the entries of the log after it. -/
theorem load_of_calm_run {start final : Host} {p : Proc} (started : Started cfg codec fates start)
    (errorless : Errorless fates) (run : Run cfg codec Calm start final)
    (alive : final.proc = some p) :
    ∃ loaded, final.disk.load = .ok loaded ∧
      loaded.hardState = ⟨p.node.currentTerm, p.node.votedFor, p.node.commitIndex⟩ ∧
      p.node.snapshot.lastIncludedIndex ≤ loaded.snapshot.lastIncludedIndex ∧
      loaded.snapshot.lastIncludedIndex ≤ p.node.lastApplied ∧
      loaded.entries =
        p.node.log.filter fun entry => loaded.snapshot.lastIncludedIndex < entry.index := by
  rcases started with ⟨before, loaded, down, loads, contiguous, rfl⟩
  have final := run.safe (restart_safe down ⟨loaded, loads, contiguous⟩ errorless)
  exact (final.saved p alive).load

def freshStart : Host := (Host.step (trio "a") SnapshotJson.codec {} [] .restart).1

theorem freshStart_started : Started (trio "a") SnapshotJson.codec [] freshStart :=
  ⟨{}, _, rfl, rfl, by simp, rfl⟩

def firstEntries : AppendEntriesRequest where
  term := 1
  leaderID := "b"
  prevLogIndex := 0
  prevLogTerm := 0
  entries := [entryAt 1 1, entryAt 2 1, entryAt 3 1]
  leaderCommit := 2

/-- The first entry is applied and a snapshot of it is saved, while the WAL still starts before
it. -/
def untilSaved : List (List Fate × Action) :=
  [([], .applyNext), ([], .applyEntry), ([], .applyDone), ([], .persistCheck 0), ([], .persistSave)]

def snapshotSaved : Host :=
  (freshStart.after (trio "a") SnapshotJson.codec [([], .appendEntries firstEntries)]).after
    (trio "a") SnapshotJson.codec untilSaved

theorem calm_of_local {host : Host} {action : Action} (silent : ∀ req, action ≠ .appendEntries req)
    (nothing : action.indexes = [])
    (held : host.proc.all (fun p => p.node.lastIndexLocked + 2 < uint64Size) = true) :
    Calm host [] action where
  errorless := by simp [Errorless]
  ordered := fun req _ same => absurd same (silent req)
  undisturbed := by
    intro p _ _
    cases action with
    | appendEntries req => exact absurd rfl (silent req)
    | _ => rfl
  received := by simp [nothing]
  held := by
    intro p live
    simpa [live] using held

theorem snapshotSaved_run : Run (trio "a") SnapshotJson.codec Calm freshStart snapshotSaved := by
  have quiet (host : Host) (action : Action) (silent : ∀ req, action ≠ .appendEntries req)
      (nothing : action.indexes = [])
      (held : host.proc.all (fun p => p.node.lastIndexLocked + 2 < uint64Size) = true) :
      Host.Step (trio "a") SnapshotJson.codec Calm host
        (host.step (trio "a") SnapshotJson.codec [] action).1 :=
    .event [] action (calm_of_local silent nothing held)
  have append : freshStart.Calm [] (.appendEntries firstEntries) :=
    { errorless := by simp [Errorless]
      ordered := by
        rintro _ p ⟨⟩ _
        exact Node.spliceSafe_of_contiguous 0 (by simp [firstEntries, entryAt])
      undisturbed := by decide
      received := by decide
      held := by
        intro p live
        obtain rfl := Option.some.inj live
        decide }
  refine .head (quiet freshStart .crash (by simp) rfl (by decide +kernel)) ?_
  refine .head (quiet _ .restart (by simp) rfl (by decide +kernel)) ?_
  refine .head (.event [] (.appendEntries firstEntries) append) ?_
  refine .head (quiet _ .applyNext (by simp) rfl (by decide +kernel)) ?_
  refine .head (quiet _ .applyEntry (by simp) rfl (by decide +kernel)) ?_
  refine .head (quiet _ .applyDone (by simp) rfl (by decide +kernel)) ?_
  refine .head (quiet _ (.persistCheck 0) (by simp) rfl (by decide +kernel)) ?_
  exact .single (quiet _ .persistSave (by simp) rfl (by decide +kernel))

theorem load_between_snapshot_writes : ∃ p loaded, snapshotSaved.proc = some p ∧
    snapshotSaved.disk.load = .ok loaded ∧ p.node.snapshot.lastIncludedIndex = 0 ∧
    loaded.snapshot.lastIncludedIndex = 1 ∧ loaded.entries = [entryAt 2 1, entryAt 3 1] := by
  obtain ⟨loaded, loads, -, -, -, entries⟩ :=
    load_of_calm_run freshStart_started (by simp [Errorless]) snapshotSaved_run rfl
  have read : snapshotSaved.disk.load = .ok ⟨_, _, _, _⟩ := rfl
  rw [read] at loads
  obtain rfl := Except.ok.inj loads
  exact ⟨_, _, rfl, read, rfl, rfl, entries⟩

/-- The leader `c` of a later term replaces the uncommitted third entry. -/
def conflictingEntry : AppendEntriesRequest where
  term := 2
  leaderID := "c"
  prevLogIndex := 2
  prevLogTerm := 1
  entries := [entryAt 3 2]
  leaderCommit := 2

def Unfailing (host : Host) (fates : List Fate) (action : Action) : Prop :=
  Errorless fates ∧ host.Unrestarted fates action

/-- A conflicting AppendEntries between the two writes of `persistSnapshot` stamps the rewritten WAL
with the new snapshot's base, and `Load` refuses its first entry. -/
theorem unloadable_after_conflict : ∃ start final p,
    Started (trio "a") SnapshotJson.codec [] start ∧
    Run (trio "a") SnapshotJson.codec Unfailing start final ∧ final.proc = some p ∧
    p.node.log = [entryAt 1 1, entryAt 2 1, entryAt 3 2] ∧
    final.disk.load = .error (.wal (.notAfterBase 1 1)) := by
  refine ⟨freshStart, snapshotSaved.after (trio "a") SnapshotJson.codec
    [([], .appendEntries conflictingEntry)], _, freshStart_started, ?_, rfl, rfl, rfl⟩
  refine .trans (run_after ?_) (.trans (run_after ?_) (run_after ?_))
  · simp [Unfailing, Unrestarted, Errorless]
  · simp [Unfailing, Unrestarted, Errorless, untilSaved]
  · simp [Unfailing, Unrestarted, Errorless]

end Host

end GoRaftKV.Raft
