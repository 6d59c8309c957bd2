import GoRaftKV.Raft.Retention
import GoRaftKV.Raft.Recoverable
import GoRaftKV.Raft.Sound

namespace GoRaftKV.Raft

open Storage Library Program

def PersistLock.persists : PersistLock → Bool
  | .checked _ | .saved _ => true
  | _ => false

def Host.fileIndex (host : Host) : Nat := (host.disk.snapshot.getD {}).lastIncludedIndex

/-- A running process and its files. The snapshots on their way to disk are newer than the one
there, and the apply loop handles one at a time. -/
structure Proc.Retained (disk : Disk) (p : Proc) : Prop where
  files : Retains p.node disk.snapshot disk p.node
  checked : ∀ snapshot, p.persistMu = .checked snapshot → p.node.Ready snapshot ∧
    (disk.snapshot.getD {}).lastIncludedIndex < snapshot.lastIncludedIndex
  saved : ∀ snapshot, p.persistMu = .saved snapshot → p.node.Ready snapshot ∧
    disk.snapshot = some snapshot
  captured : ∀ snapshot ∈ p.captured, p.node.Captured snapshot ∧
    (p.node.snapshot.lastIncludedIndex < snapshot.lastIncludedIndex →
      (disk.snapshot.getD {}).lastIncludedIndex < snapshot.lastIncludedIndex)
  few : p.captured.length ≤ 1
  idle : p.applyMu ≠ .free ∨ p.persistMu.persists = true → p.captured = []
  single : p.applyMu ≠ .free → p.persistMu.persists = false

structure Host.Retained (host : Host) : Prop where
  based : host.disk.Based
  covered : CommitCovered host.disk
  live : ∀ p, host.proc = some p → p.Retained host.disk

namespace Proc

variable {disk after : Disk} {p : Proc} {m : Node}

theorem Retained.section (retained : p.Retained disk)
    (kept : Retains p.node disk.snapshot after m) :
    Retained after { p with node := m } where
  files := by
    have same := kept.snapshot
    exact
      { upholds := .refl kept.wf
        boundary := rfl
        snapshot := rfl
        commit := kept.commit
        covers := by
          rw [same]
          exact kept.covers
        records := kept.records }
  checked := by
    intro snapshot lock
    rcases retained.checked snapshot lock with ⟨ready, newer⟩
    rw [kept.snapshot]
    exact ⟨ready.upheld retained.files.wf kept.upholds kept.boundary, newer⟩
  saved := by
    intro snapshot lock
    rcases retained.saved snapshot lock with ⟨ready, file⟩
    rw [kept.snapshot]
    exact ⟨ready.upheld retained.files.wf kept.upholds kept.boundary, file⟩
  captured := by
    intro snapshot member
    rcases retained.captured snapshot member with ⟨captured, newer⟩
    rw [kept.snapshot]
    refine ⟨captured.upheld retained.files.wf kept.upholds, fun later => newer ?_⟩
    rw [← kept.boundary]
    exact later
  few := retained.few
  idle := retained.idle
  single := retained.single

theorem Retained.installed {snapshot : Snapshot} (retained : p.Retained disk)
    (upholds : p.node.Upholds m) (own : m.snapshot = snapshot)
    (newer : p.node.commitIndex < snapshot.lastIncludedIndex)
    (kept : Retains m (some snapshot) after m) :
    Retained after { p with node := m, persistMu := .free } where
  files := by
    rw [kept.snapshot]
    exact kept
  checked := fun _ lock => nomatch lock
  saved := fun _ lock => nomatch lock
  captured := by
    intro older member
    have captured := (retained.captured older member).1
    have applied := retained.files.wf.applied
    refine ⟨captured.upheld retained.files.wf upholds, fun later => ?_⟩
    have bound := captured.1
    simp only [own] at later
    omega
  few := retained.few
  idle := by
    rintro (busy | busy)
    · exact retained.idle (Or.inl busy)
    · cases busy
  single := fun _ => rfl

theorem Retained.relock {lock : PersistLock} {apply : ApplyLock} {captured : List Snapshot}
    (retained : p.Retained disk)
    (checked : ∀ snapshot, lock = .checked snapshot → p.node.Ready snapshot ∧
      (disk.snapshot.getD {}).lastIncludedIndex < snapshot.lastIncludedIndex)
    (saved : ∀ snapshot, lock = .saved snapshot → p.node.Ready snapshot ∧
      disk.snapshot = some snapshot)
    (known : captured ⊆ p.captured) (few : captured.length ≤ 1)
    (idle : apply ≠ .free ∨ lock.persists = true → captured = [])
    (single : apply ≠ .free → lock.persists = false) :
    Retained disk { p with persistMu := lock, applyMu := apply, captured := captured } where
  files := retained.files
  checked := checked
  saved := saved
  captured := fun snapshot member => retained.captured snapshot (known member)
  few := few
  idle := idle
  single := single

end Proc

namespace Node

variable {cfg : Config} {n m : Node} {req : InstallSnapshotRequest} {body : Bytes}
  {data : Option KVMap} {disk after : Disk} {fates : List Fate} {resp : InstallSnapshotResponse}

/-- The store calls that a request of `term` makes to step down, before its own. -/
def stepDownWrites (n : Node) (term : Nat) : Nat :=
  if n.currentTerm < term ∨ n.role ≠ .follower then 1 else 0

theorem finishInstall_unsaved {reached : Nat} {rest : List Fate}
    (fate : Fate.traceless (.err reached) = true)
    (ended : (n.finishInstall cfg req body data).exec store disk (.err reached :: rest) =
      .done (m, resp) after) : after.snapshot = disk.snapshot := by
  unfold finishInstall persistInstall at ended
  simp only at ended
  split at ended
  · cases ended
    rfl
  split at ended
  · cases ended
    rfl
  split at ended
  · simp only [Fate.traceless, decide_eq_true_eq] at fate
    subst fate
    simp only [perform_bind, exec, store.torn_zero] at ended
    cases ended
    rfl
  · cases ended
    rfl

theorem finishInstall_sound (disk : Disk) (sound : n.storageFatal = false) :
    (n.finishInstall cfg req body data).wp store
      (fun r after => r.1.storageFatal = false ∨ after.snapshot = disk.snapshot) (fun _ => True)
        disk := by
  unfold finishInstall persistInstall saveHardStateLocked
  simp only
  split
  · exact Or.inl sound
  split
  · exact Or.inl sound
  split
  · exact ⟨⟨⟨Or.inl sound, fun _ => trivial⟩, fun _ => trivial⟩, fun _ => trivial⟩
  · exact Or.inl sound

theorem becomeFollowerLocked_eq (term : Nat) (leaderID : NodeId) :
    n.becomeFollowerLocked cfg term leaderID =
      .call (.saveHardState
        ((n.followerAt term leaderID).hardState (n.followerAt term leaderID).commitIndex))
        fun saved => .ret (if saved then (n.steppedDown cfg term leaderID, true)
          else ((n.followerAt term leaderID).failStorageLocked cfg, false)) := by
  simp only [becomeFollowerLocked, persistHardStateLocked, saveHardStateLocked, perform_bind,
    steppedDown, call.injEq, true_and]
  funext saved
  cases saved with
  | false => rfl
  | true =>
      simp only [if_true, pure_eq]
      split <;> rfl

theorem steppedDown_sound (sound : n.storageFatal = false) (term : Nat) (leaderID : NodeId) :
    (n.steppedDown cfg term leaderID).storageFatal = false := by
  rw [steppedDown, followerAt_eq]
  split <;> exact sound

theorem installDecoded_sound :
    (n.installDecoded cfg req body data).wp store
      (fun r after => r.1.storageFatal = false ∨ after.snapshot = disk.snapshot) (fun _ => True)
        disk := by
  unfold installDecoded
  simp only
  split
  · exact Or.inr rfl
  split
  · exact Or.inr rfl
  split
  · exact Or.inr rfl
  rename_i admitted known current
  push Not at admitted
  have sound : n.storageFatal = false := Bool.eq_false_of_not_eq_true admitted.2
  split
  · simp only [becomeFollowerLocked_eq, call_bind, ret_bind]
    refine ⟨?_, fun _ => trivial⟩
    simp only [if_true]
    exact finishInstall_sound (store.complete (.saveHardState _) disk) (steppedDown_sound sound _ _)
  · exact finishInstall_sound disk sound

/-- Memory is sound after an installation, or the snapshot file is the one before, when no call
after `SaveSnapshot` fails. -/
theorem installDecoded_whole (traceless : Traceless fates)
    (whole : Errorless (fates.take (n.stepDownWrites req.term + 1)) → Errorless fates)
    (ended : (n.installDecoded cfg req body data).exec store disk fates = .done (m, resp) after) :
    m.storageFatal = false ∨ after.snapshot = disk.snapshot := by
  by_cases errorless : Errorless fates
  · have met := wp_exec (n.installDecoded cfg req body data) disk fates installDecoded_sound
      errorless
    rw [ended] at met
    exact met
  · have early := mt whole errorless
    right
    unfold installDecoded at ended
    simp only [becomeFollowerLocked_eq, call_bind, ret_bind] at ended
    split at ended
    · cases ended
      rfl
    split at ended
    · cases ended
      rfl
    split at ended
    · cases ended
      rfl
    cases fates with
    | nil => exact absurd (fun _ member => nomatch member) errorless
    | cons fate rest =>
        split at ended
        · rename_i stepsDown
          rw [stepDownWrites, if_pos stepsDown] at early
          cases fate with
          | crash reached => cases ended
          | err reached =>
              cases ended
              cases reached <;> rfl
          | ok =>
              cases rest with
              | nil => simp [Errorless, Fate.fails] at early
              | cons fate rest =>
                  cases fate with
                  | err reached =>
                      have fate := traceless _ (List.mem_cons_of_mem _ List.mem_cons_self)
                      simp only [exec, if_true] at ended
                      have kept := finishInstall_unsaved fate ended
                      exact kept
                  | _ => simp [Errorless, Fate.fails] at early
        · rename_i settled
          rw [stepDownWrites, if_neg settled] at early
          cases fate with
          | err reached => exact finishInstall_unsaved (traceless _ List.mem_cons_self) ended
          | _ => simp [Errorless, Fate.fails] at early

end Node

namespace Host

variable {cfg : Config} {codec : SnapshotCodec} {host : Host} {p : Proc} {fates : List Fate}

/-- The files are still good, and the snapshot file is not an older one. -/
structure Advances (host next : Host) : Prop where
  retained : next.Retained
  later : host.fileIndex ≤ next.fileIndex

theorem run_advances {α : Type} {program : Program StoreOp α} {finish : α → Host × Output}
    {post : α → Disk → Prop} {crash : Disk → Prop} (based : host.disk.Based)
    (holds : program.wpFaulty store post crash host.disk) (traceless : Traceless fates)
    (done : ∀ value after, program.exec store host.disk fates = .done value after →
      post value after → (∃ file, host.fileIndex ≤ (file.getD {}).lastIncludedIndex ∧
        Spared file after) ∧ ∀ q, (finish value).1.proc = some q → q.Retained after)
    (crashed : ∀ after, crash after → SparedBeyond host.disk.snapshot after) :
    host.Advances (host.run program fates finish).1 := by
  have kept : (host.run program fates finish).1.disk.Based := run_based based
  have outcome := wpFaulty_exec holds traceless
  unfold run at kept ⊢
  cases ending : program.exec store host.disk fates with
  | done value after =>
      rw [ending] at kept outcome
      rcases done value after ending outcome with ⟨⟨file, later, spared⟩, alive⟩
      refine ⟨⟨kept, spared.covered, alive⟩, ?_⟩
      simp only [fileIndex, spared.snapshot]
      exact later
  | crashed after =>
      rw [ending] at kept outcome
      rcases crashed after outcome with ⟨file, later, spared⟩
      refine ⟨⟨kept, spared.covered, fun q alive => nomatch alive⟩, ?_⟩
      simp only [fileIndex, spared.snapshot]
      exact later

theorem run_section {α : Type} {program : Program StoreOp α} {memory : α → Node}
    {finish : α → Host × Output} (based : host.disk.Based) (retained : p.Retained host.disk)
    (holds : program.wpFaulty store
      (fun value after => Retains p.node host.disk.snapshot after (memory value))
      (Spared host.disk.snapshot) host.disk)
    (traceless : Traceless fates)
    (finished : ∀ value q, (finish value).1.proc = some q → q = { p with node := memory value }) :
    host.Advances (host.run program fates finish).1 := by
  apply run_advances based holds traceless
  · intro value after _ kept
    refine ⟨⟨host.disk.snapshot, le_rfl, kept.spared⟩, ?_⟩
    intro q alive
    rw [finished value q alive]
    exact retained.section kept
  · exact fun after spared => ⟨host.disk.snapshot, le_rfl, spared⟩

/-- Errors leave no trace, no request splices a covered entry, `applyReady` goes on only when its
`persistSnapshot` has returned, and no call of an installation after its `SaveSnapshot` fails. -/
structure Guarded (host : Host) (fates : List Fate) (action : Action) : Prop where
  traceless : Traceless fates
  ordered : ∀ p req, host.proc = some p → action = .appendEntries req →
    p.node.SpliceSafe req.entries
  looped : ∀ p, host.proc = some p → action = .applyNext →
    p.captured = [] ∧ p.persistMu.persists = false
  whole : ∀ p call req body, host.proc = some p → action = .installDecoded →
    p.persistMu = .decoding call req body →
    Errorless (fates.take (p.node.stepDownWrites req.term + 1)) → Errorless fates

theorem Retained.quiet (retained : host.Retained) {q : Proc} (next : q.Retained host.disk) :
    host.Advances (host.withProc q) := by
  refine ⟨⟨retained.based, retained.covered, ?_⟩, le_rfl⟩
  rintro other ⟨⟩
  exact next

section Steps

variable (retained : host.Retained) (live : host.proc = some p)

include retained live

theorem installSnapshot_advances {call : Nat} {req : InstallSnapshotRequest}
    (traceless : Traceless fates) :
    host.Advances (p.step cfg codec host fates (.installSnapshot call req)).1 := by
  have mine := retained.live p live
  simp only [Proc.step]
  split
  · rename_i free
    apply run_advances retained.based (Node.handleInstallSnapshot_retained req mine.files) traceless
    · rintro ⟨m, progress⟩ after _ kept
      refine ⟨⟨host.disk.snapshot, le_rfl, kept.spared⟩, ?_⟩
      have moved := mine.section kept
      intro q alive
      cases progress with
      | answer resp =>
          cases alive
          exact moved
      | decode body =>
          cases alive
          refine moved.relock ?_ ?_ (fun _ member => member) mine.few ?_ fun _ => rfl
          · intro snapshot lock
            cases lock
          · intro snapshot lock
            cases lock
          · rintro (busy | busy)
            · exact mine.idle (Or.inl busy)
            · cases busy
    · exact fun after spared => ⟨host.disk.snapshot, le_rfl, spared⟩
  · exact ⟨retained, le_rfl⟩

theorem installDecoded_advances (guarded : host.Guarded fates .installDecoded) :
    host.Advances (p.step cfg codec host fates .installDecoded).1 := by
  have mine := retained.live p live
  have wf := mine.files.wf
  have applied := wf.applied
  have below := mine.files.covers.applied wf
  simp only [Proc.step]
  split
  · rename_i call req body held
    have free (captured : List Snapshot)
        (busy : p.applyMu ≠ .free ∨ PersistLock.free.persists = true)
        (none : p.applyMu ≠ .free → captured = []) : captured = [] := by
      rcases busy with busy | busy
      · exact none busy
      · cases busy
    have released {after : Disk} {m : Node} (kept : Retains p.node host.disk.snapshot after m) :
        Proc.Retained after { p with node := m, persistMu := .free } := by
      have moved := mine.section kept
      refine moved.relock ?_ ?_ (fun _ member => member) mine.few ?_ fun _ => rfl
      · intro snapshot lock
        cases lock
      · intro snapshot lock
        cases lock
      · exact fun busy => free _ busy fun applying => mine.idle (Or.inl applying)
    split
    · exact retained.quiet (released (mine.files.same rfl rfl rfl rfl))
    · rename_i data decoded
      split
      · rename_i unlocked
        apply run_advances retained.based (Node.installDecoded_retained mine.files)
          guarded.traceless
        · rintro ⟨m, resp⟩ after ended kept
          rcases kept with kept | ⟨snapshot, newer, file, memory⟩
          · refine ⟨⟨host.disk.snapshot, le_rfl, kept.spared⟩, ?_⟩
            rintro q ⟨⟩
            exact released kept
          · have stepped : host.step cfg codec fates .installDecoded =
                ({ host.withProc { p with node := m, persistMu := .free } with disk := after },
                  .snapshot call resp) := by
              simp only [Host.step, live, Proc.step, held, decoded, unlocked, if_true, run, ended]
            have sound : m.storageFatal = false := by
              by_contra fatal
              have same := (Node.installDecoded_whole guarded.traceless
                (guarded.whole p call req body live rfl held) ended).resolve_left fatal
              rw [← same, file] at below
              simp only [Option.getD_some] at below
              omega
            rcases memory sound with ⟨upholds, own, kept⟩
            refine ⟨⟨some snapshot, ?_, kept.spared⟩, ?_⟩
            · simp only [fileIndex, Option.getD_some]
              omega
            · rintro q ⟨⟩
              exact mine.installed upholds own newer kept
        · exact fun after spared => spared
      · exact ⟨retained, le_rfl⟩
  · exact ⟨retained, le_rfl⟩

theorem applyNext_advances (guarded : host.Guarded fates .applyNext) :
    host.Advances (p.step cfg codec host fates .applyNext).1 := by
  have mine := retained.live p live
  rcases guarded.looped p live rfl with ⟨none, unlocked⟩
  simp only [Proc.step, Node.applyNext_eq mine.files.wf]
  split
  · split
    · rename_i m nothing
      simp only [Prod.mk.injEq] at nothing
      rcases nothing with ⟨rfl, -⟩
      exact retained.quiet mine
    · rename_i m entry found
      simp only [Prod.mk.injEq] at found
      rcases found with ⟨rfl, -⟩
      exact retained.quiet (mine.relock mine.checked mine.saved (fun _ member => member) mine.few
        (fun _ => none) fun _ => unlocked)
  · exact ⟨retained, le_rfl⟩

theorem applyEntry_advances : host.Advances (p.step cfg codec host fates .applyEntry).1 := by
  have mine := retained.live p live
  simp only [Proc.step]
  split
  · rename_i entry applying
    have busy : p.applyMu ≠ .free := by
      rw [applying]
      rintro ⟨⟩
    have moved := mine.section (m := (p.node.applyEntry entry).1) (mine.files.same rfl rfl rfl rfl)
    exact retained.quiet (moved.relock moved.checked moved.saved (fun _ member => member) mine.few
      (fun _ => mine.idle (Or.inl busy)) fun _ => mine.single busy)
  · exact ⟨retained, le_rfl⟩

theorem applyDone_advances : host.Advances (p.step cfg codec host fates .applyDone).1 := by
  have mine := retained.live p live
  simp only [Proc.step]
  split
  · rename_i entry result applied
    have busy : p.applyMu ≠ .free := by
      rw [applied]
      rintro ⟨⟩
    have none := mine.idle (Or.inl busy)
    have kept : Retains p.node _ host.disk (p.node.applyDone cfg entry result).1 :=
      Node.applyDone_retained mine.files
    have moved := mine.section kept
    apply retained.quiet
    exact
      { files := moved.files
        checked := moved.checked
        saved := moved.saved
        captured := by
          intro snapshot member
          rw [none, List.nil_append, Option.mem_toList] at member
          refine ⟨Node.applyDone_captured member, fun _ => ?_⟩
          have next := Node.applyDone_next member
          have below := mine.files.covers.applied mine.files.wf
          omega
        few := by
          rw [none, List.nil_append]
          cases (p.node.applyDone cfg entry result).2 <;> simp
        idle := by
          rintro (unlocked | persists)
          · exact absurd rfl unlocked
          · cases (mine.single busy).symm.trans persists
        single := fun unlocked => absurd rfl unlocked }
  · exact ⟨retained, le_rfl⟩

theorem persistCheck_advances {position : Nat} :
    host.Advances (p.step cfg codec host fates (.persistCheck position)).1 := by
  have mine := retained.live p live
  simp only [Proc.step]
  split
  · rename_i snapshot free found
    have member := List.mem_of_getElem? found
    rcases mine.captured snapshot member with ⟨captured, newer⟩
    have rest : p.captured.eraseIdx position = [] := by
      have length := mine.few
      have bound := (List.getElem?_eq_some_iff.mp found).1
      apply List.eq_nil_of_length_eq_zero
      rw [List.length_eraseIdx_of_lt bound]
      omega
    have unlocked : p.applyMu = .free := by
      by_contra busy
      rw [mine.idle (Or.inl busy)] at member
      cases member
    have erased : (p.captured.eraseIdx position).length ≤ 1 := by
      rw [rest]
      exact Nat.zero_le 1
    split
    · rename_i worth
      have later := worth
      simp only [Node.worthPersisting, decide_eq_true_eq] at later
      apply retained.quiet
      refine mine.relock ?_ ?_ (fun _ kept => List.mem_of_mem_eraseIdx kept) erased (fun _ => rest)
        ?_
      · intro other lock
        cases lock
        exact ⟨⟨worth, captured.2 later.1⟩, newer later.1⟩
      · intro other lock
        cases lock
      · exact fun busy => absurd unlocked busy
    · apply retained.quiet
      exact mine.relock mine.checked mine.saved (fun _ kept => List.mem_of_mem_eraseIdx kept) erased
        (fun _ => rest) fun busy => absurd unlocked busy
  · exact ⟨retained, le_rfl⟩

theorem persistSave_advances (traceless : Traceless fates) :
    host.Advances (p.step cfg codec host fates .persistSave).1 := by
  have mine := retained.live p live
  simp only [Proc.step]
  split
  · rename_i snapshot lock
    rcases mine.checked snapshot lock with ⟨⟨worth, boundary⟩, newer⟩
    have persists : p.persistMu.persists = true := by rw [lock]; rfl
    have none := mine.idle (Or.inr persists)
    apply run_advances retained.based (Node.saveSnapshot_retained mine.files worth boundary
      newer.le) traceless
    · intro done after _ kept
      refine ⟨⟨_, ?_, kept.spared⟩, ?_⟩
      · cases done
        · exact le_rfl
        · exact newer.le
      · rintro q ⟨⟩
        have file := kept.snapshot
        exact
          { files := by
              rw [file]
              exact kept
            checked := by
              intro other held
              cases done <;> cases held
            saved := by
              intro other held
              cases done
              · cases held
              · cases held
                exact ⟨⟨worth, boundary⟩, file⟩
            captured := by
              intro other member
              rw [none] at member
              cases member
            few := mine.few
            idle := fun _ => none
            single := by
              intro busy
              cases (mine.single busy).symm.trans persists }
    · exact fun after spared => spared
  · exact ⟨retained, le_rfl⟩

theorem persistEnd_advances (traceless : Traceless fates) :
    host.Advances (p.step cfg codec host fates .persistEnd).1 := by
  have mine := retained.live p live
  simp only [Proc.step]
  split
  · rename_i snapshot lock
    have file := (mine.saved snapshot lock).2
    have persists : p.persistMu.persists = true := by rw [lock]; rfl
    have none := mine.idle (Or.inr persists)
    have files := mine.files
    rw [file] at files
    have same : (some snapshot : Option Snapshot).getD {} = host.disk.snapshot.getD {} := by
      rw [file]
    apply run_advances retained.based (Node.compact_retained files) traceless
    · rintro m after - ⟨upholds, kept⟩
      refine ⟨⟨some snapshot, ?_, kept.spared⟩, ?_⟩
      · rw [same]
        exact le_rfl
      · rintro q ⟨⟩
        exact
          { files := by
              rw [kept.snapshot]
              exact kept
            checked := by rintro _ ⟨⟩
            saved := by rintro _ ⟨⟩
            captured := by
              intro other member
              rw [none] at member
              cases member
            few := mine.few
            idle := fun _ => none
            single := fun _ => rfl }
    · intro after spared
      exact ⟨some snapshot, by rw [same], spared⟩
  · exact ⟨retained, le_rfl⟩

end Steps

theorem step_advances {action : Action} (retained : host.Retained) (live : host.proc = some p)
    (guarded : host.Guarded fates action) :
    host.Advances (p.step cfg codec host fates action).1 := by
  have mine := retained.live p live
  have files := mine.files
  have idle : host.Advances host := ⟨retained, le_rfl⟩
  have unwritten (m : Node) (snapshot : m.snapshot = p.node.snapshot) (log : m.log = p.node.log)
      (applied : m.lastApplied = p.node.lastApplied) (commit : m.commitIndex = p.node.commitIndex) :
      host.Advances (host.withNode p m) :=
    retained.quiet (mine.section (files.same snapshot log applied commit))
  have node {α : Type} (output : α → Output) (value : Node × α) (q : Proc)
      (alive : ((host.withNode p value.1, output value.2) : Host × Output).1.proc = some q) :
      q = { p with node := value.1 } := by
    cases alive
    rfl
  cases action with
  | requestVote req =>
      exact run_section retained.based mine (Node.handleRequestVote_retained req files)
        guarded.traceless (node .vote)
  | appendEntries req =>
      have safe := guarded.ordered p req live rfl
      exact run_section retained.based mine (Node.handleAppendEntries_retained files safe)
        guarded.traceless (node .append)
  | installSnapshot call req => exact installSnapshot_advances retained live guarded.traceless
  | installDecoded => exact installDecoded_advances retained live guarded
  | propose command =>
      apply run_section retained.based mine (Node.proposeAppend_retained command host.chans files)
        guarded.traceless
      rintro value q ⟨⟩
      rfl
  | cancel index chan => exact unwritten _ rfl rfl rfl rfl
  | startElection =>
      exact run_section retained.based mine (Node.startElection_retained files) guarded.traceless
        (node .ofElection)
  | becomeLeader term =>
      have holds : (p.node.becomeLeader cfg term).wpFaulty store
          (fun m after => Retains p.node host.disk.snapshot after (id m))
          (Spared host.disk.snapshot) host.disk := Node.becomeLeader_retained term files
      apply run_section retained.based mine holds guarded.traceless
      rintro value q ⟨⟩
      rfl
  | stepDown term leaderID =>
      exact run_section retained.based mine (Node.stepDown_retained term leaderID files)
        guarded.traceless (node fun _ => .nothing)
  | replicate peer =>
      rcases Node.replicateToPeer_eq p.node cfg peer with ⟨⟨nextIndex, same⟩, -⟩
      have sent : host.Advances (host.withNode p (p.node.replicateToPeer cfg peer).1) := by
        rw [same]
        exact unwritten _ rfl rfl rfl rfl
      exact sent
  | replicateReply peer req resp =>
      exact run_section retained.based mine (Node.replicateReply_retained peer req resp files)
        guarded.traceless (node (.ofAttempt peer))
  | snapshotReply term resp =>
      exact run_section retained.based mine (Node.sendSnapshotReply_retained term resp files)
        guarded.traceless (node fun leads => .chunkAcked (leads && resp.success))
  | snapshotSent peer term snapIdx =>
      simp only [Proc.step, Node.snapshotSent]
      split <;> exact unwritten _ rfl rfl rfl rfl
  | applyNext => exact applyNext_advances retained live guarded
  | applyEntry => exact applyEntry_advances retained live
  | applyDone => exact applyDone_advances retained live
  | persistCheck position => exact persistCheck_advances retained live
  | persistSave => exact persistSave_advances retained live guarded.traceless
  | persistEnd => exact persistEnd_advances retained live guarded.traceless
  | stop =>
      simp only [Proc.step, Node.stop]
      split <;> exact unwritten _ rfl rfl rfl rfl
  | crash => exact ⟨⟨retained.based, retained.covered, by rintro q ⟨⟩⟩, le_rfl⟩
  | restart => exact idle

theorem Retained.step (cfg : Config) (codec : SnapshotCodec) {action : Action}
    (retained : host.Retained) (guarded : host.Guarded fates action) :
    host.Advances (host.step cfg codec fates action).1 := by
  have idle : host.Advances host := ⟨retained, le_rfl⟩
  cases live : host.proc with
  | some p =>
      have running : host.step cfg codec fates action = p.step cfg codec host fates action := by
        unfold Host.step
        rw [live]
      rw [running]
      exact step_advances retained live guarded
  | none =>
      by_cases restarts : action = .restart
      · subst restarts
        cases loads : host.disk.load with
        | error error =>
            simp only [Host.step, live, loads]
            exact idle
        | ok loaded =>
            simp only [Host.step, live, loads]
            apply run_advances retained.based
              (Node.newNode_retained loads retained.covered (retained.based.load loads))
              guarded.traceless
            · rintro result after - ⟨spared, built⟩
              refine ⟨⟨host.disk.snapshot, le_rfl, spared⟩, ?_⟩
              intro q alive
              rcases Option.map_eq_some_iff.mp alive with ⟨n, present, rfl⟩
              have kept := built n present
              exact
                { files := by
                    rw [kept.snapshot]
                    exact kept
                  checked := by rintro _ ⟨⟩
                  saved := by rintro _ ⟨⟩
                  captured := by rintro _ ⟨⟩
                  few := Nat.zero_le 1
                  idle := fun _ => rfl
                  single := fun _ => rfl }
            · exact fun after spared => ⟨host.disk.snapshot, le_rfl, spared⟩
      · rw [step_down live restarts]
        exact idle

theorem advances_of_run {start final : Host} (retained : start.Retained)
    (run : Run cfg codec Guarded start final) : start.Advances final := by
  induction run with
  | refl => exact ⟨retained, le_rfl⟩
  | tail _ step ih =>
      rcases step with ⟨fates, action, guarded⟩
      have next := Retained.step cfg codec ih.retained guarded
      exact ⟨next.retained, ih.later.trans next.later⟩

theorem retained_initial : Retained {} where
  based := by
    intro record first
    cases first
  covered := by
    rintro loaded ⟨⟩
    exact Nat.zero_le _
  live := fun _ alive => nomatch alive

/-- The log that `Load` recovers always reaches the saved commit index, and the snapshot file is
never replaced by an older one. -/
theorem commit_covered_of_run {first second : Host}
    (before : Run cfg codec Guarded {} first)
    (after : Run cfg codec Guarded first second) :
    (∀ loaded, second.disk.load = .ok loaded →
      loaded.hardState.commitIndex ≤ lastIndex loaded.snapshot loaded.entries) ∧
      first.fileIndex ≤ second.fileIndex := by
  have start := advances_of_run retained_initial before
  have final := advances_of_run start.retained after
  exact ⟨final.retained.covered, final.later⟩

theorem guarded_of_plain {action : Action} (traceless : Traceless fates)
    (ordered : ∀ req, action = .appendEntries req → Contiguous req.prevLogIndex req.entries)
    (waits : action ≠ .applyNext) (plain : action ≠ .installDecoded) :
    host.Guarded fates action where
  traceless := traceless
  ordered := fun _ req _ same => Node.spliceSafe_of_contiguous _ (ordered req same)
  looped := fun _ _ same => absurd same waits
  whole := fun _ _ _ _ _ same => absurd same plain

def twoCommitted : Host :=
  Host.after (trio "a") SnapshotJson.codec {} [([], .restart), ([], .appendEntries firstEntries)]

/-- The first entry is applied and a snapshot of it saved, but the WAL cannot be rewritten. -/
def rewriteFailed : Host :=
  Host.after (trio "a") SnapshotJson.codec
    (twoCommitted.step (trio "a") SnapshotJson.codec [] .applyNext).1
    [([], .applyEntry), ([], .applyDone), ([], .persistCheck 0), ([], .persistSave),
    ([.err 0], .persistEnd)]

theorem commit_covered_of_failed_rewrite :
    ∃ loaded, rewriteFailed.disk.load = .ok loaded ∧ loaded.hardState.commitIndex = 2 ∧
      loaded.hardState.commitIndex ≤ lastIndex loaded.snapshot loaded.entries ∧
      twoCommitted.fileIndex = 0 ∧ rewriteFailed.fileIndex = 1 ∧
      twoCommitted.fileIndex ≤ rewriteFailed.fileIndex := by
  have before : Run (trio "a") SnapshotJson.codec Guarded {} twoCommitted := by
    apply run_after
    intro event member host
    simp only [List.mem_cons, List.not_mem_nil, or_false] at member
    rcases member with rfl | rfl
    · exact guarded_of_plain (by decide) (by rintro _ ⟨⟩) (by rintro ⟨⟩) (by rintro ⟨⟩)
    · refine guarded_of_plain (by decide) ?_ (by rintro ⟨⟩) (by rintro ⟨⟩)
      rintro req ⟨⟩
      simp [firstEntries, entryAt]
  have apply : twoCommitted.Guarded [] .applyNext :=
    { traceless := by decide
      ordered := by rintro _ _ _ ⟨⟩
      looped := by
        have free : twoCommitted.proc.all
            (fun p => p.captured = [] ∧ p.persistMu.persists = false) = true := by
          decide +kernel
        intro p live _
        simpa [live] using free
      whole := by rintro _ _ _ _ _ ⟨⟩ }
  have rest : Run (trio "a") SnapshotJson.codec Guarded
      (twoCommitted.step (trio "a") SnapshotJson.codec [] .applyNext).1 rewriteFailed := by
    apply run_after
    intro event member host
    simp only [List.mem_cons, List.not_mem_nil, or_false] at member
    rcases member with rfl | rfl | rfl | rfl | rfl <;>
      exact guarded_of_plain (by decide) (by rintro _ ⟨⟩) (by rintro ⟨⟩) (by rintro ⟨⟩)
  have kept := commit_covered_of_run before (.head (.event [] .applyNext apply) rest)
  have loads : rewriteFailed.disk.load = .ok ⟨⟨1, "", 2⟩, [entryAt 2 1, entryAt 3 1],
      ⟨1, 1, some ∅, [entryAt 1 1]⟩, true⟩ := by
    decide +kernel
  exact ⟨_, loads, rfl, kept.1 _ loads, by decide +kernel, by decide +kernel, kept.2⟩

def installFive : InstallSnapshotRequest where
  term := 1
  leaderID := "b"
  lastIncludedIndex := 5
  lastIncludedTerm := 1
  offset := 0
  data := SnapshotJson.codec.marshal (some ∅)
  done := true

/-- Entry 1 is applied and a snapshot of it captured; then the leader's snapshot is installed, but
its hard state cannot be saved. -/
def installFailed : Host :=
  twoCommitted.after (trio "a") SnapshotJson.codec
    [([], .applyNext), ([], .applyEntry), ([], .applyDone), ([], .installSnapshot 0 installFive),
     ([.ok, .ok, .err 0], .installDecoded)]

def olderSaved : Host :=
  installFailed.after (trio "a") SnapshotJson.codec
    [([], .persistCheck 0), ([], .persistSave), ([], .crash)]

theorem commit_lost_after_failed_install : ∃ first second loaded,
    Run (trio "a") SnapshotJson.codec (fun _ fates _ => Traceless fates) {} first ∧
    Run (trio "a") SnapshotJson.codec (fun _ fates _ => Traceless fates) first second ∧
    second.fileIndex < first.fileIndex ∧ second.disk.load = .ok loaded ∧
    lastIndex loaded.snapshot loaded.entries < loaded.hardState.commitIndex := by
  have loads : olderSaved.disk.load = .ok ⟨⟨1, "", 2⟩, [], ⟨1, 1, some ∅, [entryAt 1 1]⟩,
      true⟩ := by
    decide +kernel
  refine ⟨installFailed, olderSaved, _, .trans (run_after ?_) (run_after ?_), run_after ?_,
    by decide +kernel, loads, by decide⟩
  · simp [Traceless]
  · simp [Traceless, Fate.traceless]
  · simp [Traceless]

end Host

end GoRaftKV.Raft
