import GoRaftKV.Raft.WellFormed
import Mathlib.Logic.Relation

namespace GoRaftKV.Raft

open Storage Library

namespace Node

section Fields

variable (n : Node) (cfg : Config) (term : Nat) (leaderID : NodeId)

theorem followerAt_eq : n.followerAt term leaderID =
    { n with
      currentTerm := max n.currentTerm term
      votedFor := if n.currentTerm < term then "" else n.votedFor
      role := .follower, leaderID := leaderID, leaderNoopIndex := 0 } := by
  unfold followerAt
  split
  · rename_i less
    rw [max_eq_right less.le]
  · rename_i less
    rw [max_eq_left (Nat.le_of_not_lt less)]

theorem failStorageLocked_followerAt :
    (n.followerAt n.currentTerm leaderID).failStorageLocked cfg = n.failStorageLocked cfg := by
  simp [followerAt_eq, failStorageLocked]

def steppedDown : Node :=
  if n.role = .leader then (n.followerAt term leaderID).failUncommittedWaitersLocked cfg
  else n.followerAt term leaderID

end Fields

/-- What a locked section can do to memory, apart from proposals, applied entries and new snapshots,
in steps that each keep the invariants below. -/
inductive Move (cfg : Config) : Node → Node → Prop
  | progress (n : Node) (leaderID : NodeId) (leaderNoopIndex : Nat)
      (nextIndex matchIndex : NodeId → Nat) (pendingSnapshot : Option SnapshotProgress) :
      Move cfg n { n with
        leaderID := leaderID, leaderNoopIndex := leaderNoopIndex, nextIndex := nextIndex
        matchIndex := matchIndex, pendingSnapshot := pendingSnapshot }
  | follow (n : Node) (term : Nat) (leaderID : NodeId) :
      Move cfg n (n.steppedDown cfg term leaderID)
  | fail (n : Node) (term : Nat) (leaderID : NodeId) :
      Move cfg n ((n.followerAt term leaderID).failStorageLocked cfg)
  | vote (n : Node) (candidateID : NodeId)
      (undecided : n.votedFor = "" ∨ n.votedFor = candidateID) :
      Move cfg n { n with votedFor := candidateID }
  | stand (n : Node) (idle : n.role ≠ .leader) : Move cfg n (n.candidate cfg)
  | lead (n : Node) (standing : n.role = .candidate) : Move cfg n (n.leading cfg)
  | noop (n : Node) (entry : LogEntry) (leads : n.role = .leader)
      (next : entry.index = n.lastIndexLocked + 1) : Move cfg n (n.withNoop cfg entry)
  | commit (n : Node) (index : Nat) (later : n.commitIndex ≤ index)
      (bound : index ≤ n.lastIndexLocked) : Move cfg n { n with commitIndex := index }
  | merge (n : Node) (keep : Nat) (rest : List LogEntry) (follows : n.role = .follower)
      (bound : keep ≤ n.log.length) (safe : n.commitIndex ≤ n.snapshot.lastIncludedIndex + keep)
      (next : Contiguous (n.snapshot.lastIncludedIndex + keep) rest) :
      Move cfg n { n with log := n.log.take keep ++ rest }
  | cancel (n : Node) (index : Nat) (chan : ChanId) : Move cfg n (n.removeWaiter index chan)
  | stop (n : Node) : Move cfg n n.stop

/-- Several moves in a row. -/
abbrev Moves (cfg : Config) : Node → Node → Prop := Relation.ReflTransGen (Move cfg)

theorem logAfterSnapshotLocked_contiguous {n : Node} {snapshot : Snapshot}
    (contiguous : Contiguous n.snapshot.lastIncludedIndex n.log)
    (newer : n.snapshot.lastIncludedIndex < snapshot.lastIncludedIndex) :
    Contiguous snapshot.lastIncludedIndex (n.logAfterSnapshotLocked snapshot) := by
  unfold logAfterSnapshotLocked
  split
  · rw [contiguous.filter_lt newer.le]
    have rest := contiguous.drop (snapshot.lastIncludedIndex - n.snapshot.lastIncludedIndex)
    rwa [Nat.add_sub_cancel' newer.le] at rest
  · exact contiguous_nil _

/-- `m` is well formed, has taken back nothing that `n` had committed, applied or compacted, and
still holds what `n` had committed beyond the snapshot. -/
structure Upholds (n m : Node) : Prop where
  wellFormed : WellFormed m
  commit : n.commitIndex ≤ m.commitIndex
  compacted : n.snapshot.lastIncludedIndex ≤ m.snapshot.lastIncludedIndex
  applied : n.lastApplied ≤ m.lastApplied
  kept : ∀ index, m.snapshot.lastIncludedIndex < index → index ≤ n.commitIndex →
    m.entryAtLocked index = n.entryAtLocked index

theorem Upholds.refl {n : Node} (wf : WellFormed n) : Upholds n n :=
  ⟨wf, le_rfl, le_rfl, le_rfl, fun _ _ _ => rfl⟩

theorem Upholds.trans {n m k : Node} (first : Upholds n m) (second : Upholds m k) :
    Upholds n k where
  wellFormed := second.wellFormed
  commit := first.commit.trans second.commit
  compacted := first.compacted.trans second.compacted
  applied := first.applied.trans second.applied
  kept := by
    intro index after committed
    rw [second.kept index after (committed.trans first.commit)]
    exact first.kept index (second.compacted.trans_lt after) committed

theorem Upholds.of_same {n m : Node} (wf : WellFormed n) (log : m.log = n.log)
    (snapshot : m.snapshot = n.snapshot) (applied : m.lastApplied = n.lastApplied)
    (commit : m.commitIndex = n.commitIndex) : Upholds n m where
  wellFormed := by
    refine ⟨?_, ?_, ?_, ?_⟩
    · rw [snapshot, log]
      exact wf.contiguous
    · rw [snapshot, applied]
      exact wf.compacted
    · rw [applied, commit]
      exact wf.applied
    · rw [lastIndexLocked, snapshot, log, commit]
      exact wf.committed
  commit := commit.ge
  compacted := by rw [snapshot]
  applied := applied.ge
  kept := by
    intro index _ _
    simp only [entryAtLocked, snapshot, log]

theorem Upholds.snoc {n m : Node} (wf : WellFormed n) {entry : LogEntry}
    (next : entry.index = n.lastIndexLocked + 1) (log : m.log = n.log ++ [entry])
    (snapshot : m.snapshot = n.snapshot) (applied : m.lastApplied = n.lastApplied)
    (commit : m.commitIndex = n.commitIndex) : Upholds n m := by
  have last := lastIndexLocked_eq wf.contiguous
  have committed := wf.committed
  have longer : Contiguous m.snapshot.lastIncludedIndex m.log := by
    rw [snapshot, log, contiguous_append]
    refine ⟨wf.contiguous, ?_⟩
    simp only [contiguous_cons, contiguous_nil, and_true]
    omega
  refine ⟨⟨longer, ?_, ?_, ?_⟩, commit.ge, by rw [snapshot], applied.ge, ?_⟩
  · rw [snapshot, applied]
    exact wf.compacted
  · rw [applied, commit]
    exact wf.applied
  · rw [lastIndexLocked_eq longer, snapshot, log, commit, List.length_append]
    omega
  · intro index after bound
    rw [entryAtLocked_of_gt longer after, snapshot, log, List.getElem?_append_left]
    · rw [entryAtLocked_of_gt wf.contiguous (by rwa [snapshot] at after)]
    · rw [snapshot] at after
      omega

theorem upholds_merge {n : Node} (wf : WellFormed n) {keep : Nat} {rest : List LogEntry}
    (bound : keep ≤ n.log.length) (safe : n.commitIndex ≤ n.snapshot.lastIncludedIndex + keep)
    (next : Contiguous (n.snapshot.lastIncludedIndex + keep) rest) :
    Upholds n { n with log := n.log.take keep ++ rest } := by
  have spliced : Contiguous n.snapshot.lastIncludedIndex (n.log.take keep ++ rest) := by
    rw [contiguous_append, List.length_take, min_eq_left bound]
    exact ⟨wf.contiguous.take keep, next⟩
  refine ⟨⟨spliced, wf.compacted, wf.applied, ?_⟩, le_rfl, le_rfl, le_rfl, ?_⟩
  · rw [lastIndexLocked_eq (n := { n with log := n.log.take keep ++ rest }) spliced]
    simp only [List.length_append, List.length_take, min_eq_left bound]
    omega
  · intro index after committed
    rw [entryAtLocked_of_gt (n := { n with log := n.log.take keep ++ rest }) spliced after,
      entryAtLocked_of_gt wf.contiguous after]
    have inside : index - n.snapshot.lastIncludedIndex - 1 < keep := by
      simp only at after
      omega
    rw [List.getElem?_append_left (by rw [List.length_take, min_eq_left bound]; exact inside),
      List.getElem?_take_of_lt inside]

theorem upholds_install {n : Node} (wf : WellFormed n) {snapshot : Snapshot}
    (newer : n.commitIndex < snapshot.lastIncludedIndex) :
    Upholds n (n.installed snapshot (n.logAfterSnapshotLocked snapshot)
      snapshot.lastIncludedIndex) := by
  have compacted := wf.compacted
  have applied := wf.applied
  have after : n.snapshot.lastIncludedIndex < snapshot.lastIncludedIndex := by omega
  have rest := logAfterSnapshotLocked_contiguous wf.contiguous after
  have jump : max n.lastApplied snapshot.lastIncludedIndex = snapshot.lastIncludedIndex := by omega
  refine ⟨⟨rest, le_max_right _ _, jump.le, ?_⟩, newer.le, after.le, le_max_left _ _, ?_⟩
  · have last := lastIndexLocked_eq (n := n.installed snapshot
      (n.logAfterSnapshotLocked snapshot) snapshot.lastIncludedIndex) rest
    exact (Nat.le_add_right _ _).trans last.ge
  · intro index later committed
    simp only [installed] at later
    omega

def compacted (n : Node) (snapshot : Snapshot) : Node :=
  { n with
    snapshot := snapshot
    log := n.log.filter fun entry => snapshot.lastIncludedIndex < entry.index }

theorem entryAtLocked_compacted {n : Node} (wf : WellFormed n) {snapshot : Snapshot}
    (newer : n.snapshot.lastIncludedIndex < snapshot.lastIncludedIndex) {index : Nat}
    (after : snapshot.lastIncludedIndex < index) :
    (n.compacted snapshot).entryAtLocked index = n.entryAtLocked index := by
  have rest := wf.contiguous.drop (snapshot.lastIncludedIndex - n.snapshot.lastIncludedIndex)
  rw [Nat.add_sub_cancel' newer.le] at rest
  rw [compacted, wf.contiguous.filter_lt newer.le]
  rw [entryAtLocked_of_gt (n := { n with snapshot := snapshot, log := _ }) rest after,
    entryAtLocked_of_gt wf.contiguous (newer.trans after)]
  simp only [List.getElem?_drop]
  congr 1
  omega

theorem upholds_compact {n : Node} (wf : WellFormed n) {snapshot : Snapshot}
    (worth : n.worthPersisting snapshot = true) : Upholds n (n.compacted snapshot) := by
  simp only [worthPersisting, decide_eq_true_eq] at worth
  obtain ⟨newer, reached⟩ := worth
  have committed := wf.committed
  have applied := wf.applied
  have rest := wf.contiguous.drop (snapshot.lastIncludedIndex - n.snapshot.lastIncludedIndex)
  rw [Nat.add_sub_cancel' newer.le] at rest
  rw [lastIndexLocked_eq wf.contiguous] at committed
  refine ⟨?_, le_rfl, newer.le, le_rfl, fun index after _ => entryAtLocked_compacted wf newer after⟩
  rw [compacted, wf.contiguous.filter_lt newer.le]
  refine ⟨rest, reached, wf.applied, ?_⟩
  rw [lastIndexLocked_eq (n := { n with snapshot := snapshot, log := _ }) rest]
  simp only [List.length_drop]
  omega

theorem Move.upholds {cfg : Config} {n m : Node} (move : Move cfg n m) (wf : WellFormed n) :
    Upholds n m := by
  cases move with
  | progress => exact .of_same wf rfl rfl rfl rfl
  | follow term leaderID =>
      rw [steppedDown, followerAt_eq]
      split <;> exact .of_same wf rfl rfl rfl rfl
  | fail term leaderID =>
      rw [followerAt_eq]
      exact .of_same wf rfl rfl rfl rfl
  | vote => exact .of_same wf rfl rfl rfl rfl
  | stand => exact .of_same wf rfl rfl rfl rfl
  | lead => exact .of_same wf rfl rfl rfl rfl
  | noop entry leads next => exact .snoc wf next rfl rfl rfl rfl
  | commit index later bound =>
      exact ⟨⟨wf.contiguous, wf.compacted, wf.applied.trans later, bound⟩, later, le_rfl, le_rfl,
        fun _ _ _ => rfl⟩
  | merge keep rest follows bound safe next => exact upholds_merge wf bound safe next
  | cancel => exact .of_same wf rfl rfl rfl rfl
  | stop =>
      unfold Node.stop
      split <;> exact .of_same wf rfl rfl rfl rfl

theorem Move.snapshot {cfg : Config} {n m : Node} (move : Move cfg n m) :
    m.snapshot = n.snapshot := by
  cases move with
  | follow term leaderID =>
      rw [steppedDown, followerAt_eq]
      split <;> rfl
  | fail term leaderID =>
      rw [followerAt_eq]
      rfl
  | stop =>
      unfold Node.stop
      split <;> rfl
  | _ => rfl

theorem Moves.snapshot {cfg : Config} {n m : Node} (moves : Moves cfg n m) :
    m.snapshot = n.snapshot := by
  induction moves with
  | refl => rfl
  | tail _ move ih => exact move.snapshot.trans ih

theorem Moves.upholds {cfg : Config} {n m : Node} (moves : Moves cfg n m) (wf : WellFormed n) :
    Upholds n m := by
  induction moves with
  | refl => exact .refl wf
  | tail _ move ih => exact ih.trans (move.upholds ih.wellFormed)

end Node

end GoRaftKV.Raft
