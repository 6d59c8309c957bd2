import GoRaftKV.Raft.Custody

/-! A snapshot of chosen entries on its way into a follower: its chunks, and the log it leaves
behind. -/

namespace GoRaftKV.Raft

open Storage Library Program

namespace InstallSnapshotRequest.Follows

variable {setting : Setting} {req : InstallSnapshotRequest} {a : Ideal} {codec : SnapshotCodec}

theorem part (follows : req.Follows a codec) (inv : Consensus.Inv LogEntry.term setting.Quorum a) :
    (a.leaderLog req.term).take req.lastIncludedIndex = req.history := by
  have meet := fun first second => @Setting.Quorum.meet setting first second
  rcases inv.chosenPrefix meet follows.chosen follows.led with ⟨rest, whole⟩
  rw [← whole, follows.index, List.take_left]

theorem bound (follows : req.Follows a codec) (inv : Consensus.Inv LogEntry.term setting.Quorum a) :
    req.lastIncludedIndex ≤ (a.leaderLog req.term).length := by
  have shorter := List.length_take_le' req.lastIncludedIndex (a.leaderLog req.term)
  rw [follows.part inv] at shorter
  rw [follows.index]
  exact shorter

theorem snapshot (follows : req.Follows a codec) :
    Node.requestSnapshot req (some (KVStateMachine.replay ∅ req.history)) = foldOf req.history := by
  unfold Node.requestSnapshot foldOf
  rw [if_neg follows.nonempty, follows.index, follows.term]

theorem agreed (follows : req.Follows a codec) :
    Agreed a (Node.requestSnapshot req (some (KVStateMachine.replay ∅ req.history))) := by
  rw [follows.snapshot]
  exact ⟨rfl, follows.ordered, req.term, follows.chosen⟩

theorem fresh (follows : req.Follows a codec) :
    SnapshotProgress.Follows ⟨req.leaderID, req.lastIncludedIndex, req.lastIncludedTerm, []⟩ a
      codec :=
  ⟨req.history, follows.nonempty, ⟨req.term, follows.chosen⟩, follows.index, List.nil_prefix⟩

theorem next (follows : req.Follows a codec) (inv : Consensus.Inv LogEntry.term setting.Quorum a)
    {progress : SnapshotProgress} (arrived : progress.Follows a codec)
    (same : progress.lastIncludedIndex = req.lastIncludedIndex)
    (offset : req.offset = progress.buffer.length) :
    progress.buffer ++ req.data <+: bodyOf codec req.history := by
  rcases arrived with ⟨history, nonempty, ⟨t, chosen⟩, length, begun⟩
  have meet := fun first second => @Setting.Quorum.meet setting first second
  obtain rfl : history = req.history := by
    apply inv.chosenSame meet chosen follows.chosen
    rw [← length, same, follows.index]
  have front : progress.buffer = (bodyOf codec req.history).take req.offset := by
    rcases begun with ⟨rest, whole⟩
    rw [offset, ← whole, List.take_left]
  rw [front]
  exact follows.chunk

end InstallSnapshotRequest.Follows

namespace Node

variable {setting : Setting} {n m : Node} {a b : Ideal} {v : NodeId} {req : InstallSnapshotRequest}

theorem Realizes.repend (realizes : n.Realizes a setting.codec v) (leaderID : NodeId)
    {pending : Option SnapshotProgress}
    (follows : ∀ progress, pending = some progress → progress.Follows a setting.codec) :
    Realizes { n with leaderID := leaderID, pendingSnapshot := pending } a setting.codec v :=
  ⟨⟨realizes.wf.contiguous, realizes.wf.compacted, realizes.wf.applied, realizes.wf.committed⟩,
    realizes.snapshot, realizes.term, realizes.voted, realizes.role, realizes.log,
      realizes.committed,
    fun leader => (realizes.leads leader).congr rfl le_rfl rfl rfl rfl, follows⟩

theorem Realizes.stale (realizes : n.Realizes b setting.codec v) (reach : Reaches setting v a b)
    (follows : req.Follows b setting.codec) (role : n.role = .follower)
    (current : n.currentTerm = req.term) (old : req.lastIncludedIndex ≤ n.commitIndex) :
    ∃ c, Reaches setting v a c ∧ n.Realizes c setting.codec v ∧
      Acked c v req.term req.lastIncludedIndex := by
  have meet := fun first second => @Setting.Quorum.meet setting first second
  have committed := realizes.wf.committed
  rw [realizes.whole.lastIndex] at committed
  have held : (b.leaderLog req.term).take req.lastIncludedIndex <+: n.fullLog := by
    rw [follows.part reach.inv]
    apply List.IsPrefix.trans _ ( List.take_prefix n.commitIndex n.fullLog)
    apply reach.inv.chosenShorter meet follows.chosen realizes.committed
    rw [List.length_take_of_le committed, ← follows.index]
    exact old
  have chosen := realizes.committed
  rw [realizes.term] at chosen
  rcases realizes.accept reach role (current ▸ follows.led) (current ▸ follows.bound reach.inv)
    realizes.wf realizes.snapshot rfl rfl rfl (current ▸ (Consensus.aligned_of_held held).symm)
      chosen realizes.pending with
    ⟨c, further, accepted, acked⟩
  rw [current] at acked
  exact ⟨c, further, accepted, acked⟩

theorem Realizes.installedLog (realizes : n.Realizes b setting.codec v)
    (inv : Consensus.Inv LogEntry.term setting.Quorum b) (follows : req.Follows b setting.codec)
    (newer : n.commitIndex < req.lastIncludedIndex) {snapshot : Snapshot}
    (folded : snapshot = foldOf req.history) :
    snapshot.history ++ n.logAfterSnapshotLocked snapshot =
      b.aligned req.term req.lastIncludedIndex n.fullLog := by
  have compacted := realizes.wf.compacted
  have applied := realizes.wf.applied
  have index : snapshot.lastIncludedIndex = req.lastIncludedIndex := by
    rw [folded, follows.index]
    rfl
  have part := follows.part inv
  have grounded := inv.logGrounded v
  rw [realizes.log] at grounded
  have there : termOfIndex (b.leaderLog req.term) req.lastIncludedIndex =
      some snapshot.lastIncludedTerm := by
    rw [endTerm_take (by omega) (follows.bound inv), part, folded]
    rfl
  have history : snapshot.history = req.history := by
    rw [folded]
    rfl
  unfold logAfterSnapshotLocked
  rw [index, realizes.whole.termAt (by omega) (by omega), history]
  by_cases same : termOfIndex n.fullLog req.lastIncludedIndex = some snapshot.lastIncludedTerm
  · have agree := agree_upTo grounded (inv.leaderLogGrounded req.term) (by omega) same there
    rw [part] at agree
    have held : (b.leaderLog req.term).take req.lastIncludedIndex <+: n.fullLog := by
      rw [part, ← agree]
      exact List.take_prefix _ _
    have rest : (n.log.filter fun entry => req.lastIncludedIndex < entry.index) =
        n.fullLog.drop req.lastIncludedIndex := by
      have later : n.snapshot.lastIncludedIndex ≤ req.lastIncludedIndex := by omega
      rw [realizes.wf.contiguous.filter_lt later, ← realizes.whole.drop_compacted, List.drop_drop,
        Nat.add_sub_cancel' later]
    rw [if_pos same, Consensus.aligned_of_held held, rest, ← agree, List.take_append_drop]
  · have missing : ¬ (b.leaderLog req.term).take req.lastIncludedIndex <+: n.fullLog := by
      rintro ⟨rest, whole⟩
      have bound := follows.bound inv
      have covered : req.lastIncludedIndex - 1 <
          ((b.leaderLog req.term).take req.lastIncludedIndex).length := by
        rw [List.length_take_of_le bound]
        omega
      apply same
      rw [← there, termOfIndex, termOfIndex, ← whole, List.getElem?_append_left covered,
        List.getElem?_take_of_lt (by omega)]
    rw [if_neg same, Consensus.aligned_of_missing missing, part, List.append_nil]

theorem Realizes.install (realizes : n.Realizes b setting.codec v) (reach : Reaches setting v a b)
    (follows : req.Follows b setting.codec) (role : n.role = .follower)
    (current : n.currentTerm = req.term) (newer : n.commitIndex < req.lastIncludedIndex)
    {snapshot : Snapshot} (folded : snapshot = foldOf req.history) :
    ∃ c, Reaches setting v a c ∧
      (n.installed snapshot (n.logAfterSnapshotLocked snapshot) req.lastIncludedIndex).Realizes c
        setting.codec v ∧
      Acked c v req.term req.lastIncludedIndex := by
  have index : snapshot.lastIncludedIndex = req.lastIncludedIndex := by
    rw [folded, follows.index]
    rfl
  have history : snapshot.history = req.history := by
    rw [folded]
    rfl
  have agreed : Agreed b snapshot := by
    rw [folded]
    exact ⟨rfl, follows.ordered, req.term, follows.chosen⟩
  have log := realizes.installedLog reach.inv follows newer folded
  have wf : WellFormed (n.installed snapshot (n.logAfterSnapshotLocked snapshot)
      req.lastIncludedIndex) := by
    rw [← index] at newer ⊢
    exact (upholds_install realizes.wf newer).wellFormed
  have chosen : Consensus.Chosen b n.currentTerm
      ((n.installed snapshot (n.logAfterSnapshotLocked snapshot) req.lastIncludedIndex).fullLog.take
        req.lastIncludedIndex) := by
    have whole : (n.installed snapshot (n.logAfterSnapshotLocked snapshot)
        req.lastIncludedIndex).fullLog = req.history ++ n.logAfterSnapshotLocked snapshot := by
      rw [← history]
      rfl
    rw [whole, follows.index, List.take_left, current]
    exact follows.chosen
  rcases realizes.accept reach role (current ▸ follows.led) (current ▸ follows.bound reach.inv) wf
    agreed rfl rfl rfl (current ▸ log) chosen nofun with ⟨c, further, installed, acked⟩
  rw [current] at acked
  exact ⟨c, further, installed, acked⟩

end Node

end GoRaftKV.Raft
