import GoRaftKV.Storage.GoLines
import GoRaftKV.Storage.LoadFile

namespace GoRaftKV.Storage

open Library Program

variable {codec : LineCodec} {files after : Files} {disk : Disk} {hs : HardState} {snap : Snapshot}
  {entries : List LogEntry} {lines : List Content} {records : List WalRecord} {rewrite : Bool}

def Stands (codec : LineCodec) (lines : List Content) (stored : WalRecord) : Prop :=
  ∃ line ∈ lines, codec.trimSpace line ≠ [] ∧ codec.decodeWALLine (codec.trimSpace line) =
    some stored

theorem stands_iff {stored : WalRecord} (parsed : parseLines codec lines = some records) :
    Stands codec lines stored ↔ stored ∈ records := by
  induction lines generalizing records with
  | nil =>
      cases parsed
      simp [Stands]
  | cons line lines ih =>
      have split : Stands codec (line :: lines) stored ↔
          (codec.trimSpace line ≠ [] ∧ codec.decodeWALLine (codec.trimSpace line) = some stored) ∨
            Stands codec lines stored := by
        simp only [Stands, List.mem_cons, exists_eq_or_imp]
      rw [split]
      simp only [parseLines] at parsed
      split at parsed
      · rename_i blank
        rw [ih parsed]
        simp [blank]
      · rename_i solid
        split at parsed
        · cases parsed
        · rename_i first decoded
          rcases Option.map_eq_some_iff.mp parsed with ⟨rest, others, rfl⟩
          rw [ih others, decoded, List.mem_cons, Option.some.injEq]
          simp only [ne_eq, solid, not_false_eq_true, true_and]
          exact ⟨Or.imp_left Eq.symm, Or.imp_left Eq.symm⟩

/-- The WAL has a base record at the boundary of the snapshot, or the entry that the snapshot ends
in. -/
def Files.Agrees (codec : LineCodec) (files : Files) (snap : Snapshot) : Prop :=
  Stands codec files.walLines (.base snap.lastIncludedIndex snap.lastIncludedTerm) ∨
    ∃ entry, Stands codec files.walLines (.entry entry) ∧ entry.index = snap.lastIncludedIndex ∧
      entry.term = snap.lastIncludedTerm

/-- A WAL that has no snapshot below it starts with a base record or with entry 1. -/
def Files.Anchored (codec : LineCodec) (files : Files) (snap : Snapshot) : Prop :=
  snap.lastIncludedIndex = 0 →
    ∀ entry rest, parseLines codec files.walLines = some (.entry entry :: rest) → entry.index = 1

theorem View.anchored (view : View codec files disk)
    (anchored : files.Anchored codec (disk.snapshot.getD {})) :
    disk.Anchored := by
  intro zero entry first
  have records := view.records
  cases written : disk.wal.getD [] with
  | nil =>
      rw [written] at first
      cases first
  | cons head rest =>
      rw [written] at first records
      cases first
      exact anchored zero entry rest records

theorem WalData.Strung.boundary {data : WalData} (strung : data.Strung) {entry : LogEntry}
    (member : entry ∈ data.entries) (index : entry.index = snap.lastIncludedIndex)
    (term : entry.term = snap.lastIncludedTerm) :
    hasSnapshotBoundaryEntry data.entries snap = true := by
  rcases strung with ⟨start, contiguous, -⟩
  have after := (contiguous.mem member).1
  have place := contiguous.position member
  rw [index] at after place
  simp only [hasSnapshotBoundaryEntry, contiguous.find, if_pos after, place, term, decide_true]

theorem View.kept (view : View codec files disk)
    (loads : disk.load = .ok ⟨hs, entries, snap, rewrite⟩)
    (agrees : snap.lastIncludedIndex = 0 ∨ files.Agrees codec snap) {entry : LogEntry}
    (written : Stands codec files.walLines (.entry entry))
    (later : snap.lastIncludedIndex < entry.index) :
    entry ∈ entries := by
  rcases Disk.load_cases loads with ⟨data, read, chosen⟩
  have listed := readRecords_entry read
  rw [List.nil_append] at listed
  have recorded {other : LogEntry} (stands : Stands codec files.walLines (.entry other)) :
      other ∈ data.entries := by
    rw [listed]
    exact List.mem_filterMap.mpr ⟨_, (stands_iff view.records).mp stands, rfl⟩
  rcases chosen with ⟨positive, same⟩ | ⟨zero, bottom, same⟩
  · simp only [Loaded.mk.injEq] at same
    rcases same with ⟨-, rfl, rfl, -⟩
    have beyond : entry ∈ entriesAfter data.entries (disk.snapshot.getD {}).lastIncludedIndex := by
      apply List.mem_filter.mpr
      exact ⟨recorded written, by simpa using later⟩
    rcases agrees with zero | base | ⟨last, stands, index, term⟩
    · omega
    · have matching := readRecords_based read ((stands_iff view.records).mp base)
      simp only [reconcileWALWithSnapshot, if_pos matching]
      exact beyond
    · have boundary := (readWAL_strung read).boundary (recorded stands) index term
      simp only [reconcileWALWithSnapshot, if_pos boundary]
      split
      · exact beyond
      · exact beyond
  · simp only [Loaded.mk.injEq] at same
    rw [same.2.1]
    exact recorded written

theorem View.anchored_of_contiguous (view : View codec files disk)
    (loads : disk.load = .ok ⟨hs, entries, snap, rewrite⟩)
    (contiguous : Contiguous snap.lastIncludedIndex entries) : files.Anchored codec snap := by
  intro zero entry rest first
  have current : disk.snapshot.getD {} = snap := (Disk.load_records loads).1
  have recorded : disk.wal.getD [] = .entry entry :: rest :=
    Option.some.inj (view.records.symm.trans first)
  rcases Disk.load_cases loads with ⟨data, read, ⟨positive, -⟩ | ⟨-, -, same⟩⟩
  · rw [current, zero] at positive
    exact absurd positive (Nat.lt_irrefl 0)
  · simp only [Loaded.mk.injEq] at same
    have listed := readRecords_entry read
    rw [recorded, List.nil_append, ← same.2.1] at listed
    have head : entries[0]? = some entry := by
      rw [listed]
      rfl
    rw [contiguous 0 entry head, zero]

/-- `Load` hands out a log without a hole just when the WAL starts where it has to, and always with
everything the WAL has beyond a snapshot it agrees with. -/
theorem Files.load_no_hole (loads : files.Loads codec hs entries snap after) :
    (Contiguous snap.lastIncludedIndex entries ↔ files.Anchored codec snap) ∧
      (snap.lastIncludedIndex = 0 ∨ files.Agrees codec snap → ∀ entry,
        Stands codec files.walLines (.entry entry) → snap.lastIncludedIndex < entry.index →
          entry ∈ entries) := by
  rcases loads.view with ⟨disk, rewrite, view, loaded, -⟩
  have current : disk.snapshot.getD {} = snap := (Disk.load_records loaded).1
  refine ⟨⟨view.anchored_of_contiguous loaded, fun anchored => ?_⟩, ?_⟩
  · rw [← current] at anchored
    exact Disk.load_contiguous loaded (view.anchored anchored)
  · intro agrees entry written later
    exact view.kept loaded agrees written later

def tornFiles : Files where
  wal := some (goLines.write
    [.base 0 0, .entry ⟨1, 1, { op := .noop }⟩, .entry ⟨2, 1, { op := .put, key := "k" }⟩] ++
      Json.encodeUtf8 "\x7b\"index\":3".toList)

theorem tornFiles_loads : tornFiles.Loads goLines {}
    [⟨1, 1, { op := .noop }⟩, ⟨2, 1, { op := .put, key := "k" }⟩] {} tornFiles.trimmed := by
  unfold Files.Loads
  decide +kernel

theorem Files.load_no_hole_torn :
    Contiguous 0 [⟨1, 1, { op := .noop }⟩, ⟨2, 1, { op := .put, key := "k" }⟩] := by
  apply (Files.load_no_hole tornFiles_loads).1.mpr
  intro _ entry rest first
  have records : parseLines goLines tornFiles.walLines = some [.base 0 0,
      .entry ⟨1, 1, { op := .noop }⟩, .entry ⟨2, 1, { op := .put, key := "k" }⟩] := by
    decide +kernel
  rw [records] at first
  cases first

/-- A WAL that starts with entry 5 although there is no snapshot. -/
def headlessFiles : Files where
  wal := some (Json.encodeUtf8
    "\x7b\"index\":5,\"term\":1,\"command\":\x7b\"op\":\"noop\",\"key\":\"\"\x7d\x7d\n".toList)

/-- `Load` accepts the WAL and returns a log whose first four entries are missing. -/
theorem Files.load_headless :
    headlessFiles.Loads goLines {} [⟨5, 1, { op := .noop }⟩] {} headlessFiles ∧
      ¬ Contiguous 0 [⟨5, 1, { op := .noop }⟩] := by
  constructor
  · unfold Files.Loads
    decide +kernel
  · simp [contiguous_cons]

theorem View.settled (view : View codec files disk)
    (loaded : disk.load = .ok ⟨hs, entries, snap, rewrite⟩) :
    (files.settled codec entries snap rewrite).Reloads codec hs entries snap := by
  unfold Files.settled
  split
  · rename_i rewritten
    rw [rewritten] at loaded
    exact view.reloads_written loaded
  · exact ⟨disk, rewrite, view.trimmed, loaded⟩

/-- `Load` returns the same again, on the files it leaves and on those a crash inside it leaves. -/
theorem Files.load_again (loads : files.Loads codec hs entries snap after) :
    (∃ left, after.Loads codec hs entries snap left) ∧
      ∀ fates crashed, Errorless fates →
        (files.load codec).exec (loadDevice codec) files fates = .crashed crashed →
          ∃ left, crashed.Loads codec hs entries snap left := by
  rcases loads.view with ⟨disk, rewrite, view, loaded, rfl⟩
  constructor
  · exact (view.settled loaded).loads
  · intro fates crashed errorless stopped
    have meets := wp_exec _ _ fates (view.load_wp loaded) errorless
    rw [stopped] at meets
    exact Files.Reloads.loads meets

theorem Files.load_again_torn :
    (∃ left, tornFiles.trimmed.Loads goLines {}
      [⟨1, 1, { op := .noop }⟩, ⟨2, 1, { op := .put, key := "k" }⟩] {} left) ∧
    ∃ left, (tornFiles.cut ((tornFiles.wal.getD []).length - 1)).Loads goLines {}
      [⟨1, 1, { op := .noop }⟩, ⟨2, 1, { op := .put, key := "k" }⟩] {} left := by
  constructor
  · exact (Files.load_again tornFiles_loads).1
  · -- The truncation has taken the last byte and not yet the others.
    have stopped : (tornFiles.load goLines).exec (loadDevice goLines) tornFiles [.crash 10] =
        .crashed (tornFiles.cut ((tornFiles.wal.getD []).length - 1)) := by
      decide +kernel
    exact (Files.load_again tornFiles_loads).2 _ _ (by decide) stopped

end GoRaftKV.Storage
