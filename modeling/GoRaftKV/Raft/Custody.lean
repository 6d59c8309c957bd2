import GoRaftKV.Raft.Recoverable
import GoRaftKV.Raft.Splicing

/-! The data directory of a node that takes part in the protocol. A conflicting AppendEntries
between the two writes of `persistSnapshot` may leave a WAL that `Load` refuses: the entries are
all there, but the machine cannot be restarted before the compaction is finished. -/

namespace GoRaftKV.Raft

open Storage Library Program

def walLines (disk : Disk) : List LogEntry := (disk.wal.getD []).filterMap WalRecord.toEntry

/-- The WAL has the base of a snapshot that memory has not compacted to yet. -/
structure Broken (base : Snapshot) (disk : Disk) (n : Node) : Prop where
  ready : n.Ready base
  hardState : disk.hardState.getD {} = n.hardState n.commitIndex
  snapshot : disk.snapshot.getD {} = base
  entries : walLines disk = n.log
  unreadable : ∃ error, readWAL disk.wal = .error error

/-- The files of a process whose snapshot on disk is `base`. -/
def Stored (base : Snapshot) (disk : Disk) (n : Node) : Prop :=
  Backed base disk n ∨ Broken base disk n

theorem Node.Ready.congr {n m : Node} {base : Snapshot} (ready : n.Ready base)
    (same : SameFiles n m) :
    m.Ready base := by
  refine ⟨?_, (Node.termAtLocked_congr same.snapshot same.log _).trans ready.2⟩
  have worth := ready.1
  simp only [Node.worthPersisting, same.snapshot, same.applied] at worth ⊢
  exact worth

theorem Node.upholds_append {n : Node} (wf : WellFormed n) {entries : List LogEntry}
    (next : Contiguous (n.snapshot.lastIncludedIndex + n.log.length) entries) :
    n.Upholds { n with log := n.log ++ entries } := by
  have grown := Node.upholds_merge wf le_rfl (by
    rw [← Node.lastIndexLocked_eq wf.contiguous]
    exact wf.committed) next
  rwa [List.take_length] at grown

namespace Broken

variable {base : Snapshot} {disk : Disk} {n m : Node}

theorem longer (broken : Broken base disk n) (lines : List WalRecord) :
    ∃ error, readWAL (some (disk.wal.getD [] ++ lines)) = .error error := by
  rcases broken.unreadable with ⟨error, refused⟩
  refine ⟨error, ?_⟩
  rw [readWAL, Option.getD_some, readRecords_append]
  rw [readWAL] at refused
  rw [refused]

theorem appended (broken : Broken base disk n) (wf : WellFormed n) {entries : List LogEntry}
    (next : Contiguous (n.snapshot.lastIncludedIndex + n.log.length) entries) (reached : Nat)
    {count : Nat} (arrived : ((appendedRecords disk entries).take reached).filterMap
      WalRecord.toEntry = entries.take count) :
    Broken base { disk with
      wal := some (disk.wal.getD [] ++ (appendedRecords disk entries).take reached) } { n with
        log := n.log ++ entries.take count } where
  ready := broken.ready.upheld wf (Node.upholds_append wf (next.take count)) rfl
  hardState := broken.hardState
  snapshot := broken.snapshot
  entries := by
    have lines := broken.entries
    unfold walLines at lines ⊢
    rw [Option.getD_some, List.filterMap_append, arrived, lines]
  unreadable := broken.longer _

end Broken

theorem stored_tracks (base : Snapshot) : Tracks (Stored base) where
  same := by
    rintro disk n m (backed | broken) files hardState
    · exact Or.inl ((backed_tracks base).same backed files hardState)
    · exact Or.inr ⟨broken.ready.congr files, broken.hardState.trans hardState.symm,
        broken.snapshot, broken.entries.trans files.log.symm, broken.unreadable⟩
  save := by
    rintro disk n m (backed | broken) files
    · exact Or.inl ((backed_tracks base).save backed files)
    · exact Or.inr ⟨broken.ready.congr files, rfl, broken.snapshot,
        broken.entries.trans files.log.symm, broken.unreadable⟩
  append := by
    rintro disk n m entries (backed | broken) wf nonempty next files hardState
    · exact Or.inl ((backed_tracks base).append backed wf nonempty next files hardState)
    · right
      have whole : ((appendedRecords disk entries).take
          (appendedRecords disk entries).length).filterMap WalRecord.toEntry =
            entries.take entries.length := by
        rw [List.take_length, List.take_length, appendedRecords_toEntry]
      have grown := broken.appended wf next _ whole
      simp only [List.take_length] at grown
      simp only [Disk.complete, if_neg nonempty]
      exact ⟨grown.ready.congr files, grown.hardState.trans hardState.symm, grown.snapshot,
        grown.entries.trans files.log.symm, grown.unreadable⟩
  torn := by
    rintro disk n entries reached (backed | broken) wf next
    · rcases (backed_tracks base).torn reached backed wf next with ⟨count, torn⟩
      exact ⟨count, Or.inl torn⟩
    · have nothing : Broken base disk { n with log := n.log ++ entries.take 0 } := by
        simp only [List.take_zero, List.append_nil]
        exact broken
      cases reached with
      | zero =>
          have same : Disk.torn (.appendEntries entries) 0 disk = disk :=
            store.torn_zero (.appendEntries entries) disk
          rw [same]
          exact ⟨0, Or.inr nothing⟩
      | succ reached =>
          simp only [Disk.torn]
          split
          · exact ⟨0, Or.inr nothing⟩
          · rcases appendedRecords_take disk entries reached with ⟨count, arrived⟩
            exact ⟨count, Or.inr (broken.appended wf next reached arrived)⟩

section Rewrite

variable {base : Snapshot} {disk : Disk} {n m : Node}

theorem readWAL_covered {baseIndex baseTerm : Nat} {entry : LogEntry} {entries : List LogEntry}
    (positive : entry.index ≠ 0) (covered : entry.index ≤ baseIndex) :
    readWAL (some (walImage baseIndex baseTerm (entry :: entries))) =
      .error (.notAfterBase entry.index baseIndex) := by
  simp [readWAL, walImage, readRecords, readRecord, positive, covered]

theorem Stored.rewritten (stored : Stored base disk n) (wf : WellFormed n) {lastNew keep : Nat}
    {result : Node.MergeEntriesResult} {rest : List LogEntry}
    (splice : Node.Splice n lastNew m result keep rest) :
    Stored base (Disk.complete (.replaceEntries m.log) disk) m := by
  have same : m.snapshot = n.snapshot := by rw [splice.memory]
  have hardState : m.hardState m.commitIndex = n.hardState n.commitIndex := by
    rw [splice.memory]
    rfl
  have upholds : n.Upholds m := by
    rw [splice.memory]
    exact Node.upholds_merge wf splice.bound splice.safe splice.next
  have image : Disk.complete (.replaceEntries m.log) disk = { disk with
      wal :=
        some (walImage (disk.snapshot.getD {}).lastIncludedIndex
        (disk.snapshot.getD {}).lastIncludedTerm m.log) } := rfl
  have gap (ready : n.Ready base) (hard : disk.hardState.getD {} = n.hardState n.commitIndex)
      (saved : disk.snapshot.getD {} = base) :
      Broken base (Disk.complete (.replaceEntries m.log) disk) m := by
    have kept := ready.upheld wf upholds same
    refine ⟨kept, hard.trans hardState.symm, saved, ?_, ?_⟩
    · rw [image, walLines, Option.getD_some, walImage_toEntry]
    · -- The log reaches the new base, so its first entry lies at or before it.
      have worth := kept.1
      simp only [Node.worthPersisting, decide_eq_true_eq] at worth
      have applied := upholds.wellFormed.applied
      have committed := upholds.wellFormed.committed
      have last := Node.lastIndexLocked_eq upholds.wellFormed.contiguous
      cases log : m.log with
      | nil =>
          rw [log, List.length_nil] at last
          omega
      | cons entry entries =>
          have contiguous := upholds.wellFormed.contiguous
          rw [log, contiguous_cons] at contiguous
          refine ⟨.notAfterBase entry.index base.lastIncludedIndex, ?_⟩
          simp only [Disk.complete, snapshotBaseLocked, saved]
          exact readWAL_covered (by omega) (by omega)
  rcases stored with ⟨own | ready, durable⟩ | broken
  · refine Or.inl
      ⟨Or.inl (own.trans same.symm), durable.replace ?_ hardState (same.trans own.symm) rfl⟩
    rw [own]
    exact splice.contiguous wf.contiguous
  · exact Or.inr (gap ready durable.hardState durable.snapshot)
  · exact Or.inr (gap broken.ready broken.hardState broken.snapshot)

end Rewrite

section Recovery

variable {setting : Setting} {a b : Ideal} {codec : SnapshotCodec} {v : NodeId} {base : Snapshot}
  {disk : Disk} {k : Node}

theorem Agreed.length (agreed : Agreed a base) : base.history.length = base.lastIncludedIndex := by
  rw [agreed.folded]
  rfl

theorem Node.Realizes.history (inv : Consensus.Inv LogEntry.term setting.Quorum a)
    (realizes : k.Realizes a codec v) (agreed : Agreed a base)
    (bound : base.lastIncludedIndex ≤ k.commitIndex) :
    base.history = k.fullLog.take base.lastIncludedIndex := by
  rcases agreed.chosen with ⟨t, chosen⟩
  have meet := fun first second => @Setting.Quorum.meet setting first second
  apply inv.chosenSame meet chosen (realizes.chosen bound)
  have committed := realizes.wf.committed
  rw [realizes.whole.lastIndex] at committed
  rw [agreed.length, List.length_take_of_le (bound.trans committed)]

theorem Node.Realizes.recoveredLog (inv : Consensus.Inv LogEntry.term setting.Quorum a)
    (realizes : k.Realizes a codec v) (agreed : Agreed a base) (covers : k.Covers base) :
    base.history ++ (k.log.filter fun entry => base.lastIncludedIndex < entry.index) =
      k.fullLog := by
  rcases covers.bounds realizes.wf with ⟨later, bound⟩
  have rest : (k.log.filter fun entry => base.lastIncludedIndex < entry.index) =
      k.fullLog.drop base.lastIncludedIndex := by
    rw [realizes.wf.contiguous.filter_lt later, ← realizes.whole.drop_compacted, List.drop_drop,
      Nat.add_sub_cancel' later]
  rw [realizes.history inv agreed bound, rest, List.take_append_drop]

theorem Node.Realizes.restored (inv : Consensus.Inv LogEntry.term setting.Quorum a)
    (realizes : k.Realizes a setting.codec v) (role : k.role = .follower) (agreed : Agreed a base)
    (covers : k.Covers base) {commit : Nat} (behind : commit ≤ k.commitIndex) (rewrite : Bool) :
    (Node.restored ⟨k.hardState commit, k.log.filter fun entry =>
      base.lastIncludedIndex < entry.index, base, rewrite⟩).Realizes a setting.codec v := by
  rcases covers.bounds realizes.wf with ⟨later, bound⟩
  have whole := realizes.recoveredLog inv agreed covers
  have numbered := realizes.whole.numbered
  rw [← whole, contiguous_append, agreed.length, Nat.zero_add] at numbered
  have wf : WellFormed (Node.restored ⟨k.hardState commit,
      k.log.filter fun entry => base.lastIncludedIndex < entry.index, base, rewrite⟩) :=
    restored_wellFormed numbered.2
  refine ⟨wf, agreed, realizes.term, realizes.voted, realizes.role.trans role, ?_, ?_, nofun, nofun⟩
  · exact realizes.log.trans whole.symm
  · have same : (Node.restored ⟨k.hardState commit,
        k.log.filter fun entry => base.lastIncludedIndex < entry.index, base, rewrite⟩).fullLog =
          k.fullLog := whole
    rw [same]
    apply realizes.chosen
    exact (min_le_left _ _).trans (max_le behind bound)

/-- The files of a machine that has stopped with memory `k`. -/
def Left (disk : Disk) (k : Node) : Prop := Recovers disk k ∨ ∃ base, Broken base disk k

theorem Stored.left (stored : Stored base disk k) (wf : WellFormed k) : Left disk k := by
  rcases stored with backed | broken
  · exact Or.inl (backed.recovers wf)
  · exact Or.inr ⟨base, broken⟩

/-- The memory of a machine that is down, as its files remember it. -/
def Dormant (a : Ideal) (codec : SnapshotCodec) (v : NodeId) (disk : Disk) : Prop :=
  Agreed a (disk.snapshot.getD {}) ∧
    ∃ k : Node, k.role = .follower ∧ k.Realizes a codec v ∧ Left disk k

theorem Node.Realizes.rests (realizes : k.Realizes b setting.codec v)
    (reach : Reaches setting v a b) (left : Left disk k)
    (agreed : Agreed b (disk.snapshot.getD {})) :
    ∃ c, Reaches setting v a c ∧ Dormant c setting.codec v disk := by
  have grows : Consensus.Extends b (b.setRole v .follower) := Consensus.extends_setRole v .follower
  refine ⟨_, reach.follow, agreed.mono grows, { k with role := .follower }, rfl, ?_, ?_⟩
  · exact realizes.restyled ⟨rfl, rfl, rfl, rfl, rfl⟩ grows realizes.term realizes.voted
      (Function.update_self ..)
      rfl nofun
  · rcases left with recovers | ⟨base, broken⟩
    · exact Or.inl recovers
    · exact Or.inr ⟨base, broken.ready, broken.hardState, broken.snapshot, broken.entries,
        broken.unreadable⟩

/-- What `Load` finds on a machine that is down is a node of the protocol. -/
theorem Dormant.load (rests : Dormant a setting.codec v disk)
    (inv : Consensus.Inv LogEntry.term setting.Quorum a) {loaded : Loaded}
    (loads : disk.load = .ok loaded) :
    (Node.restored loaded).Realizes a setting.codec v ∧
      loaded.hardState.commitIndex ≤ (Node.restored loaded).commitIndex := by
  rcases rests with
    ⟨agreed, k, role, realizes, ⟨base, commit, rewrite, covers, behind, found⟩ | ⟨base, broken⟩⟩
  · have saved := (Disk.load_records found).1
    rw [saved] at agreed
    rw [found] at loads
    obtain rfl := Except.ok.inj loads
    have restored := realizes.restored inv role agreed covers behind rewrite
    have last := restored.whole.lastIndex
    have committed := realizes.wf.committed
    rw [← restored.log, realizes.log, ← realizes.whole.lastIndex] at last
    exact ⟨restored, le_min (le_max_left _ _) (behind.trans (committed.trans last.ge))⟩
  · rcases broken.unreadable with ⟨error, refused⟩
    rcases Disk.load_cases loads with ⟨data, read, -⟩
    rw [refused] at read
    cases read

/-- `NewNode`: wherever it stops, the files still stand for the node it builds. -/
theorem newNode_left {loaded : Loaded} (loads : disk.load = .ok loaded)
    (contiguous : Contiguous loaded.snapshot.lastIncludedIndex loaded.entries)
    (behind : loaded.hardState.commitIndex ≤ (Node.restored loaded).commitIndex) :
    (Node.newNode loaded).wp store
      (fun result disk => result = some (Node.restored loaded) ∧
        Durable disk loaded.snapshot (Node.restored loaded))
      (fun disk => Recovers disk (Node.restored loaded) ∧ disk.snapshot.getD {} = loaded.snapshot)
        disk := by
  obtain ⟨snapshot, hardState, records⟩ := Disk.load_records loads
  have wf := restored_wellFormed contiguous
  have whole : (loaded.entries.filter fun entry => loaded.snapshot.lastIncludedIndex <
      entry.index) = loaded.entries := by
    rw [contiguous.filter_lt le_rfl, Nat.sub_self, List.drop_zero]
  have stops (disk : Disk) {rewrite : Bool} (saved : disk.snapshot.getD {} = loaded.snapshot)
      (found : disk.load = .ok ⟨loaded.hardState, loaded.entries, loaded.snapshot, rewrite⟩) :
      Recovers disk (Node.restored loaded) ∧ disk.snapshot.getD {} = loaded.snapshot := by
    refine ⟨⟨loaded.snapshot, loaded.hardState.commitIndex, rewrite, Or.inl rfl, behind, ?_⟩, saved⟩
    have same : (Node.restored loaded).log = loaded.entries := rfl
    rw [same, whole]
    exact found
  refine Host.newNode_tracked loads contiguous (stops disk snapshot loads) ?_ ?_
  · refine @stops _ false snapshot ?_
    rw [← hardState]
    exact Disk.load_image contiguous snapshot
  · exact fun disk written => ⟨Backed.recovers ⟨Or.inl rfl, written⟩ wf, written.snapshot⟩

end Recovery

end GoRaftKV.Raft
