import GoRaftKV.Raft.Sections

namespace GoRaftKV.Raft

open Storage Library Program

namespace Node

/-- Requests of `term` from `leaderID` pass the checks that the handlers make first. -/
structure Hears (n : Node) (cfg : Config) (leaderID : NodeId) (term : Nat) : Prop where
  running : n.stopped = false
  sound : n.storageFatal = false
  known : cfg.isKnownRemotePeerLocked leaderID = true
  current : n.currentTerm ≤ term

instance (n : Node) (cfg : Config) (leaderID : NodeId) (term : Nat) :
    Decidable (n.Hears cfg leaderID term) :=
  decidable_of_iff (n.stopped = false ∧ n.storageFatal = false ∧
      cfg.isKnownRemotePeerLocked leaderID = true ∧ n.currentTerm ≤ term)
    ⟨fun checks => ⟨checks.1, checks.2.1, checks.2.2.1, checks.2.2.2⟩,
      fun hears => ⟨hears.running, hears.sound, hears.known, hears.current⟩⟩

/-- Memory once such a request has made the node follow its sender. -/
def yielded (n : Node) (cfg : Config) (term : Nat) (leaderID : NodeId) : Node :=
  if n.currentTerm < term ∨ n.role ≠ .follower then n.steppedDown cfg term leaderID else n

variable {cfg : Config} {n : Node} {term : Nat} {leaderID : NodeId}

theorem Hears.of_checks (admitted : ¬ (n.stopped = true ∨ n.storageFatal = true))
    (known : ¬ cfg.isKnownRemotePeerLocked leaderID = false) (current : ¬ term < n.currentTerm) :
    n.Hears cfg leaderID term := by
  push Not at admitted
  exact ⟨Bool.eq_false_of_not_eq_true admitted.1, Bool.eq_false_of_not_eq_true admitted.2,
    Bool.eq_true_of_not_eq_false known, Nat.le_of_not_lt current⟩

theorem becomeFollowerLocked_value (term : Nat) (leaderID : NodeId) :
    (n.becomeFollowerLocked cfg term leaderID).value = (n.steppedDown cfg term leaderID, true) := by
  simp only [becomeFollowerLocked, persistHardStateLocked, saveHardStateLocked, perform_bind,
    value_call, if_true, steppedDown]
  split <;> rfl

theorem yielded_eq (n : Node) (cfg : Config) (leaderID : NodeId) (current : n.currentTerm ≤ term) :
    ∃ votedFor leader noop waiters delivered, n.yielded cfg term leaderID =
      { n with
        role := .follower, currentTerm := term, votedFor := votedFor, leaderID := leader
        leaderNoopIndex := noop, waiters := waiters, delivered := delivered } := by
  unfold yielded
  split
  · rw [steppedDown, followerAt_eq, max_eq_right current]
    split <;> exact ⟨_, _, _, _, _, rfl⟩
  · rename_i settled
    push Not at settled
    have same : n.currentTerm = term := le_antisymm current settled.1
    refine ⟨n.votedFor, n.leaderID, n.leaderNoopIndex, n.waiters, n.delivered, ?_⟩
    rw [← same, ← settled.2]

theorem Hears.handleAppendEntries_value {req : AppendEntriesRequest}
    (hears : n.Hears cfg req.leaderID req.term) : (n.handleAppendEntries cfg req).value =
      ((n.yielded cfg req.term req.leaderID).matchEntries cfg req).value := by
  have admitted : ¬ (n.stopped = true ∨ n.storageFatal = true) := by
    simp [hears.running, hears.sound]
  have known : ¬ cfg.isKnownRemotePeerLocked req.leaderID = false := by simp [hears.known]
  simp only [handleAppendEntries, if_neg admitted, if_neg known,
    if_neg (Nat.not_lt.mpr hears.current), yielded]
  split
  · simp only [value_bind, becomeFollowerLocked_value, if_true]
  · rfl

theorem Hears.handleInstallSnapshot_value {req : InstallSnapshotRequest}
    (hears : n.Hears cfg req.leaderID req.term) : (n.handleInstallSnapshot cfg req).value =
      (n.yielded cfg req.term req.leaderID).collectChunk req := by
  have admitted : ¬ (n.stopped = true ∨ n.storageFatal = true) := by
    simp [hears.running, hears.sound]
  have known : ¬ cfg.isKnownRemotePeerLocked req.leaderID = false := by simp [hears.known]
  simp only [handleInstallSnapshot, if_neg admitted, if_neg known,
    if_neg (Nat.not_lt.mpr hears.current), yielded]
  split
  · simp only [value_bind, becomeFollowerLocked_value, if_true, pure_eq, value_ret]
  · rfl

theorem handleInstallSnapshot_deaf {req : InstallSnapshotRequest}
    (deaf : ¬ n.Hears cfg req.leaderID req.term) :
    n.handleInstallSnapshot cfg req = .ret (n, .answer { term := n.currentTerm }) := by
  unfold handleInstallSnapshot
  split
  · rfl
  split
  · rfl
  split
  · rfl
  · rename_i admitted known current
    exact absurd (Hears.of_checks admitted known current) deaf

theorem installDecoded_deaf {req : InstallSnapshotRequest} (body : Bytes) (data : Option KVMap)
    (deaf : ¬ n.Hears cfg req.leaderID req.term) : n.installDecoded cfg req body data =
      .ret ({ n with pendingSnapshot := none }, { term := n.currentTerm }) := by
  unfold installDecoded
  split
  · rfl
  split
  · rfl
  split
  · rfl
  · rename_i admitted known current
    exact absurd (Hears.of_checks admitted known current) deaf

theorem Hears.installDecoded_value {req : InstallSnapshotRequest} (body : Bytes)
    (data : Option KVMap) (hears : n.Hears cfg req.leaderID req.term) :
    (n.installDecoded cfg req body data).value =
      ((n.yielded cfg req.term req.leaderID).finishInstall cfg req body data).value := by
  have admitted : ¬ (n.stopped = true ∨ n.storageFatal = true) := by
    simp [hears.running, hears.sound]
  have known : ¬ cfg.isKnownRemotePeerLocked req.leaderID = false := by simp [hears.known]
  simp only [installDecoded, if_neg admitted, if_neg known, if_neg (Nat.not_lt.mpr hears.current),
    yielded]
  split
  · simp only [value_bind, becomeFollowerLocked_value, if_true]
  · rfl

end Node

theorem Host.run_succeeding {α : Type} (host : Host) (program : Program StoreOp α)
    (finish : α → Host × Output) :
    ∃ disk, host.run program [] finish =
      ({ (finish program.value).1 with disk := disk }, (finish program.value).2) := by
  have ⟨disk, ran⟩ : ∃ disk, program.exec store host.disk [] = .done program.value disk :=
    exec_value _ _
  refine ⟨disk, ?_⟩
  unfold Host.run
  rw [ran]

end GoRaftKV.Raft
