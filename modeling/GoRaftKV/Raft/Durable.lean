import GoRaftKV.Raft.HostRuns
import GoRaftKV.Storage.Recovery

namespace GoRaftKV.Raft

open Storage Library Program

/-- The files hold what memory holds, with `base` the snapshot on disk. -/
structure Durable (disk : Disk) (base : Snapshot) (n : Node) : Prop where
  hardState : disk.hardState.getD {} = n.hardState n.commitIndex
  snapshot : disk.snapshot.getD {} = base
  records : Records disk.wal n.snapshot n.log

/-- `base` is memory's snapshot, or a newer one of entries that are applied and still in the log. -/
def Node.Covers (n : Node) (base : Snapshot) : Prop :=
  base = n.snapshot ∨
    (n.worthPersisting base = true ∧
      n.termAtLocked base.lastIncludedIndex = some base.lastIncludedTerm)

theorem Node.Covers.load {disk : Disk} {base : Snapshot} {n : Node} (covers : n.Covers base)
    (contiguous : Contiguous n.snapshot.lastIncludedIndex n.log)
    (current : disk.snapshot.getD {} = base) (records : Records disk.wal n.snapshot n.log) :
    ∃ rewrite, disk.load = .ok ⟨disk.hardState.getD {},
      n.log.filter fun entry => base.lastIncludedIndex < entry.index, base, rewrite⟩ := by
  rcases covers with same | ⟨worth, boundary⟩
  · refine ⟨false, ?_⟩
    subst same
    rw [contiguous.filter_lt le_rfl, Nat.sub_self, List.drop_zero]
    exact records.load (fun _ => contiguous) current
  · simp only [Node.worthPersisting, decide_eq_true_eq] at worth
    obtain ⟨rewrite, loads⟩ := records.load_newer current worth.1
    refine ⟨rewrite, ?_⟩
    have found : (n.log.find? fun entry => entry.index = base.lastIncludedIndex).map LogEntry.term =
        some base.lastIncludedTerm := by
      rw [contiguous.find, if_pos worth.1, ← Node.entryAtLocked_of_gt contiguous worth.1,
        ← Node.termAtLocked_of_gt worth.1]
      exact boundary
    rw [loads, survivors, if_pos found]

namespace Durable

variable {disk : Disk} {base : Snapshot} {n : Node}

theorem of_same {m : Node} (durable : Durable disk base n)
    (hardState : m.hardState m.commitIndex = n.hardState n.commitIndex)
    (snapshot : m.snapshot = n.snapshot) (log : m.log = n.log) : Durable disk base m where
  hardState := durable.hardState.trans hardState.symm
  snapshot := durable.snapshot
  records := by
    rw [snapshot, log]
    exact durable.records

theorem saveHardState {m : Node} (durable : Durable disk base n)
    (snapshot : m.snapshot = n.snapshot) (log : m.log = n.log) :
    Durable { disk with hardState := some (m.hardState m.commitIndex) } base m where
  hardState := rfl
  snapshot := durable.snapshot
  records := by
    rw [snapshot, log]
    exact durable.records

theorem blank (durable : Durable disk base n) (wf : WellFormed n) (covers : n.Covers base)
    (empty : disk.wal.getD [] = []) : disk.snapshot.getD {} = n.snapshot := by
  rw [durable.snapshot]
  rcases covers with same | ⟨worth, -⟩
  · exact same
  · simp only [Node.worthPersisting, decide_eq_true_eq] at worth
    have last := Node.lastIndexLocked_eq wf.contiguous
    rw [durable.records.empty empty] at last
    have applied := wf.applied
    have committed := wf.committed
    simp only [List.length_nil] at last
    omega

theorem append {m : Node} (durable : Durable disk base n) (wf : WellFormed n)
    (covers : n.Covers base) {entries : List LogEntry} (nonempty : entries ≠ [])
    (next : Contiguous (n.snapshot.lastIncludedIndex + n.log.length) entries)
    (hardState : m.hardState m.commitIndex = n.hardState n.commitIndex)
    (snapshot : m.snapshot = n.snapshot) (log : m.log = n.log ++ entries) :
    Durable (Disk.complete (.appendEntries entries) disk) base m := by
  simp only [Disk.complete, if_neg nonempty]
  refine ⟨durable.hardState.trans hardState.symm, durable.snapshot, ?_⟩
  rw [snapshot, log]
  rw [← wf.contiguous.lastIndex] at next
  exact durable.records.append next (durable.blank wf covers)

theorem replace {m : Node} (durable : Durable disk base n) {entries : List LogEntry}
    (contiguous : Contiguous base.lastIncludedIndex entries)
    (hardState : m.hardState m.commitIndex = n.hardState n.commitIndex)
    (snapshot : m.snapshot = base) (log : m.log = entries) :
    Durable (Disk.complete (.replaceEntries entries) disk) base m := by
  refine ⟨durable.hardState.trans hardState.symm, durable.snapshot, ?_⟩
  simp only [Disk.complete, snapshotBaseLocked, durable.snapshot, snapshot, log]
  exact records_image contiguous

/-- `Load` on such files returns the hard state, the snapshot on disk and the entries after it. -/
theorem load (durable : Durable disk base n) (wf : WellFormed n) (covers : n.Covers base) :
    ∃ rewrite, disk.load = .ok ⟨n.hardState n.commitIndex,
      n.log.filter fun entry => base.lastIncludedIndex < entry.index, base, rewrite⟩ := by
  rw [← durable.hardState]
  exact covers.load wf.contiguous durable.snapshot durable.records

theorem torn_append (durable : Durable disk base n) (wf : WellFormed n) (covers : n.Covers base)
    {entries : List LogEntry}
    (next : Contiguous (n.snapshot.lastIncludedIndex + n.log.length) entries) (reached : Nat) :
    ∃ count, Durable (Disk.torn (.appendEntries entries) reached disk) base
      { n with log := n.log ++ entries.take count } := by
  have nothing : Durable disk base { n with log := n.log ++ entries.take 0 } :=
    durable.of_same rfl rfl (by simp)
  cases reached with
  | zero => exact ⟨0, nothing⟩
  | succ reached =>
      simp only [Disk.torn]
      split
      · exact ⟨0, nothing⟩
      · rw [← wf.contiguous.lastIndex] at next
        have records := durable.records.torn_append next (durable.blank wf covers) reached
        rcases appendedRecords_take disk entries reached with ⟨count, arrived⟩
        rw [arrived] at records
        exact ⟨count, durable.hardState, durable.snapshot, records⟩

end Durable

/-- The two nodes differ in nothing that a log file or a snapshot file holds. -/
structure SameFiles (n m : Node) : Prop where
  snapshot : m.snapshot = n.snapshot
  log : m.log = n.log
  applied : m.lastApplied = n.lastApplied

theorem SameFiles.refl (n : Node) : SameFiles n n := ⟨rfl, rfl, rfl⟩

/-- A relation between files and memory that survives the writes of the locked sections. -/
structure Tracks (P : Disk → Node → Prop) : Prop where
  same : ∀ {disk n m}, P disk n → SameFiles n m →
    m.hardState m.commitIndex = n.hardState n.commitIndex → P disk m
  save : ∀ {disk n m}, P disk n → SameFiles n m →
    P { disk with hardState := some (m.hardState m.commitIndex) } m
  append : ∀ {disk n m entries}, P disk n → WellFormed n → entries ≠ [] →
    Contiguous (n.snapshot.lastIncludedIndex + n.log.length) entries →
    SameFiles { n with log := n.log ++ entries } m →
    m.hardState m.commitIndex = n.hardState n.commitIndex →
    P (Disk.complete (.appendEntries entries) disk) m
  torn : ∀ {disk n entries} (reached : Nat), P disk n → WellFormed n →
    Contiguous (n.snapshot.lastIncludedIndex + n.log.length) entries →
    ∃ count, P (Disk.torn (.appendEntries entries) reached disk)
      { n with log := n.log ++ entries.take count }

theorem Node.Covers.congr {n m : Node} {base : Snapshot} (covers : n.Covers base)
    (same : SameFiles n m) : m.Covers base := by
  rcases covers with equal | ⟨worth, boundary⟩
  · exact Or.inl (equal.trans same.snapshot.symm)
  · refine Or.inr ⟨?_, (Node.termAtLocked_congr same.snapshot same.log _).trans boundary⟩
    simp only [Node.worthPersisting, same.snapshot, same.applied] at worth ⊢
    exact worth

theorem Node.Covers.upheld {n m : Node} {base : Snapshot} (covers : n.Covers base)
    (wf : WellFormed n) (upholds : n.Upholds m) (snapshot : m.snapshot = n.snapshot) :
    m.Covers base := by
  rcases covers with equal | ⟨worth, boundary⟩
  · exact Or.inl (equal.trans snapshot.symm)
  · simp only [Node.worthPersisting, decide_eq_true_eq] at worth
    have applied := wf.applied
    have later : m.snapshot.lastIncludedIndex < base.lastIncludedIndex := by
      rw [snapshot]
      exact worth.1
    refine Or.inr ⟨?_, ?_⟩
    · simp only [Node.worthPersisting, decide_eq_true_eq]
      exact ⟨later, worth.2.trans upholds.applied⟩
    · rw [Node.termAtLocked_of_gt later, upholds.kept _ later (by omega),
        ← Node.termAtLocked_of_gt worth.1]
      exact boundary

/-- What `Load` needs to find after a crash. -/
def Backed (base : Snapshot) (disk : Disk) (n : Node) : Prop := n.Covers base ∧ Durable disk base n

theorem backed_tracks (base : Snapshot) : Tracks (Backed base) where
  same := fun ⟨covers, durable⟩ files hardState =>
    ⟨covers.congr files, durable.of_same hardState files.snapshot files.log⟩
  save := fun ⟨covers, durable⟩ files =>
    ⟨covers.congr files, durable.saveHardState files.snapshot files.log⟩
  append := by
    rintro disk n m entries ⟨covers, durable⟩ wf nonempty next files hardState
    have grown := Node.upholds_merge wf le_rfl (by
      rw [← Node.lastIndexLocked_eq wf.contiguous]
      exact wf.committed) next
    rw [List.take_length] at grown
    exact ⟨(covers.upheld wf grown rfl).congr files,
      durable.append wf covers nonempty next hardState files.snapshot files.log⟩
  torn := by
    rintro disk n entries reached ⟨covers, durable⟩ wf next
    obtain ⟨count, torn⟩ := durable.torn_append wf covers next reached
    have grown := Node.upholds_merge wf le_rfl (by
      rw [← Node.lastIndexLocked_eq wf.contiguous]
      exact wf.committed) (next.take count)
    rw [List.take_length] at grown
    exact ⟨count, covers.upheld wf grown rfl, torn⟩

theorem Backed.rewritten {base : Snapshot} {disk : Disk} {n m : Node} {lastNew keep : Nat}
    {result : Node.MergeEntriesResult} {rest : List LogEntry} (backed : Backed base disk n)
    (own : base = n.snapshot) (contiguous : Contiguous n.snapshot.lastIncludedIndex n.log)
    (splice : Node.Splice n lastNew m result keep rest) :
    Backed base (Disk.complete (.replaceEntries m.log) disk) m := by
  have same : m.snapshot = base := by rw [splice.memory, own]
  refine ⟨Or.inl same.symm, backed.2.replace ?_ ?_ same rfl⟩
  · rw [own]
    exact splice.contiguous contiguous
  · rw [splice.memory]
    rfl

/-- After a crash, `Load` returns the files of a node that was like `k`; the commit index may
lag. -/
def Recovers (disk : Disk) (k : Node) : Prop :=
  ∃ base commit rewrite, k.Covers base ∧ commit ≤ k.commitIndex ∧
    disk.load = .ok ⟨k.hardState commit,
      k.log.filter fun entry => base.lastIncludedIndex < entry.index, base, rewrite⟩

theorem Backed.recovers {base : Snapshot} {disk : Disk} {k : Node} (backed : Backed base disk k)
    (wf : WellFormed k) : Recovers disk k := by
  obtain ⟨rewrite, loads⟩ := backed.2.load wf backed.1
  exact ⟨base, k.commitIndex, rewrite, backed.1, le_rfl, loads⟩

theorem survivors_eq {n : Node} {snapshot : Snapshot}
    (contiguous : Contiguous n.snapshot.lastIncludedIndex n.log)
    (later : n.snapshot.lastIncludedIndex < snapshot.lastIncludedIndex) :
    survivors n.log snapshot = n.logAfterSnapshotLocked snapshot := by
  unfold survivors Node.logAfterSnapshotLocked
  rw [contiguous.find, if_pos later, Node.termAtLocked_of_gt later,
    Node.entryAtLocked_of_gt contiguous later]

section Interrupted

variable {disk : Disk} {n : Node} {newer : Snapshot}

theorem boundary_missing (contiguous : Contiguous n.snapshot.lastIncludedIndex n.log)
    (positive : 0 < newer.lastIncludedIndex)
    (older : newer.lastIncludedIndex ≤ n.snapshot.lastIncludedIndex) :
    hasSnapshotBoundaryEntry n.log newer = false := by
  -- The WAL reaches no further down than the snapshot it was written for.
  have absent : (n.log.find? fun entry => entry.index = newer.lastIncludedIndex) = none := by
    rw [contiguous.find, if_neg (by omega)]
  unfold hasSnapshotBoundaryEntry
  rw [absent]
  exact decide_eq_false fun zero => positive.ne' zero.1

theorem load_saved (contiguous : Contiguous n.snapshot.lastIncludedIndex n.log)
    (held : disk.wal = some (walImage n.snapshot.lastIncludedIndex n.snapshot.lastIncludedTerm
      n.log))
    (positive : 0 < newer.lastIncludedIndex) :
    ∃ rewrite, (Disk.complete (.saveSnapshot newer) disk).load =
      .ok ⟨disk.hardState.getD {}, n.logAfterSnapshotLocked newer, newer, rewrite⟩ := by
  rcases Nat.lt_or_ge n.snapshot.lastIncludedIndex newer.lastIncludedIndex with later | older
  · have records : Records (Disk.complete (.saveSnapshot newer) disk).wal n.snapshot n.log := by
      have same : (Disk.complete (.saveSnapshot newer) disk).wal = disk.wal := rfl
      rw [same, held]
      exact records_image contiguous
    have current : (Disk.complete (.saveSnapshot newer) disk).snapshot.getD {} = newer := rfl
    rcases records.load_newer current later with ⟨rewrite, loads⟩
    rw [survivors_eq contiguous later] at loads
    exact ⟨rewrite, loads⟩
  · have read : readWAL disk.wal = .ok ⟨true, n.snapshot.lastIncludedIndex,
        n.snapshot.lastIncludedTerm, n.log⟩ := by
      rw [held]
      exact readWAL_image contiguous
    have missing := boundary_missing contiguous positive older
    simp only [Disk.complete, Disk.load, read, Option.getD_some, if_pos positive,
      reconcileWALWithSnapshot, missing, Bool.false_eq_true, if_false, true_and, Bool.true_eq_false,
        and_false]
    by_cases same : n.snapshot.lastIncludedIndex = newer.lastIncludedIndex ∧
        n.snapshot.lastIncludedTerm = newer.lastIncludedTerm
    · have boundary : n.termAtLocked newer.lastIncludedIndex = some newer.lastIncludedTerm := by
        rw [Node.termAtLocked, if_neg positive.ne', if_pos same.1.symm, same.2]
      rw [if_pos same, Node.logAfterSnapshotLocked, if_pos boundary]
      exact ⟨_, rfl⟩
    · have boundary : n.termAtLocked newer.lastIncludedIndex ≠ some newer.lastIncludedTerm := by
        intro found
        rcases older.eq_or_lt with level | below
        · rw [Node.termAtLocked, if_neg positive.ne', if_pos level] at found
          exact same ⟨level.symm, Option.some.inj found⟩
        · rw [Node.termAtLocked, if_neg positive.ne', if_neg below.ne, Node.entryAtLocked,
            if_pos older] at found
          cases found
      rw [if_neg same, Node.logAfterSnapshotLocked, if_neg boundary]
      exact ⟨true, rfl⟩

/-- A crash between `SaveSnapshot` and `ReplaceEntries` costs nothing: `Load` rebuilds the very log
that the installation would have written, and for a snapshot that the node has taken itself the log
that `persistSnapshot` would have kept. -/
theorem interrupted_install {cfg : Config} {bodyLength : Nat} (wf : WellFormed n)
    (held : disk.wal = some (walImage n.snapshot.lastIncludedIndex n.snapshot.lastIncludedTerm
      n.log))
    (positive : 1 ≤ newer.lastIncludedIndex) :
    ∃ crashed rewrite, (n.persistInstall cfg newer bodyLength).exec store disk
      [.ok, .crash 0] = .crashed crashed ∧ crashed.load =
        .ok ⟨disk.hardState.getD {}, (n.persistInstall cfg newer bodyLength).value.1.log, newer,
          rewrite⟩ ∧
      ∀ index ≤ n.lastApplied, n.snapshotAtLocked index = some newer →
        (n.persistInstall cfg newer bodyLength).value.1.log =
          n.log.filter fun entry => newer.lastIncludedIndex < entry.index := by
  rcases load_saved wf.contiguous held positive with ⟨rewrite, loads⟩
  refine ⟨_, rewrite, rfl, loads, ?_⟩
  intro index _ taken
  have boundary : n.termAtLocked newer.lastIncludedIndex = some newer.lastIncludedTerm := by
    simp only [Node.snapshotAtLocked, Option.map_eq_some_iff] at taken
    rcases taken with ⟨term, found, rfl⟩
    exact found
  exact if_pos boundary

def halfApplied : Node where
  currentTerm := 1
  log := [Host.entryAt 4 1, Host.entryAt 5 1]
  snapshot := { lastIncludedIndex := 3, lastIncludedTerm := 1, data := some ∅ }
  commitIndex := 4
  lastApplied := 4

theorem interrupted_install_halfApplied :
    ∃ newer crashed rewrite, halfApplied.snapshotAtLocked 4 = some newer ∧
      (halfApplied.persistInstall (trio "a") newer 2).exec store Host.compactedDisk
      [.ok, .crash 0] = .crashed crashed ∧
    crashed.load = .ok ⟨{ currentTerm := 1 }, [Host.entryAt 5 1], newer, rewrite⟩ := by
  have wf : WellFormed halfApplied :=
    ⟨by simp [halfApplied, Host.entryAt], by decide, by decide, by decide⟩
  have taken : halfApplied.snapshotAtLocked 4 = some ⟨4, 1, some ∅, []⟩ := rfl
  have held : Host.compactedDisk.wal = some (walImage halfApplied.snapshot.lastIncludedIndex
      halfApplied.snapshot.lastIncludedTerm halfApplied.log) := rfl
  have positive : 1 ≤ (⟨4, 1, some ∅, []⟩ : Snapshot).lastIncludedIndex := by decide
  rcases @interrupted_install _ _ _ (trio "a") 2 wf held positive with
    ⟨crashed, rewrite, stopped, loads, kept⟩
  rw [kept 4 le_rfl taken] at loads
  exact ⟨_, crashed, rewrite, taken, stopped, loads⟩

end Interrupted

end GoRaftKV.Raft
