import GoRaftKV.Library.Mirror
import GoRaftKV.Storage.TornAppend

/-! The data directory as the bytes of its three files. Every write of `Store` has its effect on
the bytes, cut at any byte when the machine stops, and the records of `Disk` say what the bytes
stand for. -/

namespace GoRaftKV.Storage

open Library Program

def Snapshot.withHistory (snap : Snapshot) (history : List LogEntry) : Snapshot :=
  { snap with history := history }

/-- What `Store` uses of `encoding/json`, with the two files that are written as a whole. The ghost
of a snapshot is not written. -/
structure FileCodec extends LineCodec where
  fits_all : ∀ record, Fits record
  writeHardState : HardState → Content
  writeSnapshot : Snapshot → Content
  read_hardState : ∀ hs, readHardState (writeHardState hs) = some hs
  read_snapshot : ∀ snap, readSnapshot (writeSnapshot snap) = some (snap.withHistory [])

/-- A data directory. `history` is a ghost: the entries folded into the snapshot file. -/
structure Directory where
  files : Files := {}
  history : List LogEntry := []

def LineCodec.entryLines (codec : LineCodec) (entries : List LogEntry) : List Content :=
  entries.map fun entry => codec.encode (.entry entry)

/-- `ReplaceEntries`, which reads the base out of the snapshot file. -/
def Files.replaceEntries (codec : LineCodec) (files : Files) (entries : List LogEntry) :
    Option Files :=
  (readJSONFile codec.readSnapshot {} files.snapshot).map fun snap =>
    { files with
      wal := some (codec.write (walImage snap.lastIncludedIndex snap.lastIncludedTerm entries)) }

namespace Directory

/-- A call that cannot read the snapshot file changes nothing. -/
def complete (codec : FileCodec) : StoreOp → Directory → Directory
  | .saveHardState hs, dir =>
      { dir with files := { dir.files with hardState := some (codec.writeHardState hs) } }
  | .appendEntries entries, dir =>
      { dir with
        files := (dir.files.appendLines codec.toLineCodec (codec.entryLines entries)).getD
          dir.files }
  | .replaceEntries entries, dir =>
      { dir with files := (dir.files.replaceEntries codec.toLineCodec entries).getD dir.files }
  | .saveSnapshot snapshot, dir =>
      { files := { dir.files with snapshot := some (codec.writeSnapshot snapshot) },
        history := snapshot.history }
  | .rewriteWAL baseIndex baseTerm entries, dir =>
      { dir with files := { dir.files with
        wal := some (codec.write (walImage baseIndex baseTerm entries)) } }

/-- A file is replaced by a rename at once; an append may stop at any byte. -/
def torn (codec : FileCodec) : StoreOp → Nat → Directory → Directory
  | _, 0, dir => dir
  | .appendEntries entries, reached + 1, dir =>
      { dir with
        files := (dir.files.tornAppend codec.toLineCodec (codec.entryLines entries)
          (reached + 1)).getD dir.files }
  | .saveHardState hs, _ + 1, dir => complete codec (.saveHardState hs) dir
  | .replaceEntries entries, _ + 1, dir => complete codec (.replaceEntries entries) dir
  | .saveSnapshot snapshot, _ + 1, dir => complete codec (.saveSnapshot snapshot) dir
  | .rewriteWAL baseIndex baseTerm entries, _ + 1, dir =>
      complete codec (.rewriteWAL baseIndex baseTerm entries) dir

end Directory

def fileDevice (codec : FileCodec) : Device StoreOp Directory where
  complete := Directory.complete codec
  torn := Directory.torn codec
  torn_zero := by
    intro op dir
    cases op <;> rfl

/-- The calls that extend a file in place. -/
def StoreOp.appends : StoreOp → Bool
  | .appendEntries _ => true
  | _ => false

def Disk.plain (disk : Disk) : Disk :=
  { disk with snapshot := disk.snapshot.map fun snap => snap.withHistory [] }

theorem Disk.plain_snapshot (disk : Disk) :
    disk.plain.snapshot.getD {} = (disk.snapshot.getD {}).withHistory [] := by
  rcases disk with ⟨hardState, wal, _ | snap⟩ <;> rfl

theorem Disk.plain_base (disk : Disk) :
    snapshotBaseLocked disk.plain = snapshotBaseLocked disk := by
  simp only [snapshotBaseLocked, disk.plain_snapshot, Snapshot.withHistory]

theorem View.load_same {codec : LineCodec} {files : Files} {disk other : Disk}
    (view : View codec files disk) (same : View codec files other) : disk.load = other.load := by
  have hardState := Option.some.inj (view.hardState.symm.trans same.hardState)
  have snapshot := Option.some.inj (view.snapshot.symm.trans same.snapshot)
  have records := Option.some.inj (view.records.symm.trans same.records)
  simp only [Disk.load, readWAL, hardState, snapshot, records]

theorem Disk.load_plain {disk : Disk} {hs : HardState} {entries : List LogEntry} {snap : Snapshot}
    {rewrite : Bool} (loads : disk.plain.load = .ok ⟨hs, entries, snap, rewrite⟩) :
    disk.load = .ok ⟨hs, entries, disk.snapshot.getD {}, rewrite⟩ ∧
      snap = (disk.snapshot.getD {}).withHistory [] := by
  have wal : disk.plain.wal = disk.wal := rfl
  have index : ((disk.snapshot.getD {}).withHistory []).lastIncludedIndex =
      (disk.snapshot.getD {}).lastIncludedIndex := rfl
  have reconciled (data : WalData) :
      reconcileWALWithSnapshot data ((disk.snapshot.getD {}).withHistory []) =
        reconcileWALWithSnapshot data (disk.snapshot.getD {}) := rfl
  simp only [Disk.load, disk.plain_snapshot, wal, index, reconciled] at loads ⊢
  cases read : readWAL disk.wal with
  | error error =>
      rw [read] at loads
      cases loads
  | ok data =>
      simp only [read] at loads ⊢
      split at loads
      · rename_i positive
        cases loads
        exact ⟨if_pos positive, rfl⟩
      · rename_i zero
        split at loads
        · cases loads
        · rename_i unbased
          cases loads
          exact ⟨(if_neg zero).trans (if_neg unbased), rfl⟩

theorem View.load_eq {codec : LineCodec} {files : Files} {disk : Disk}
    (view : View codec files disk) {data : WalData} (read : readWAL disk.wal = .ok data) :
    files.load codec =
      if (splitLines newline (files.wal.getD [])).2 = [] then
        reconcile (disk.hardState.getD {}) (disk.snapshot.getD {}) data
      else call (.truncate
        ((files.wal.getD []).length - (splitLines newline (files.wal.getD [])).2.length)) fun cut =>
        if cut then reconcile (disk.hardState.getD {}) (disk.snapshot.getD {}) data
          else ret (.error .io) := by
  have accepted : readLines codec {} (splitLines newline (files.wal.getD [])).1 = .ok data :=
    readLines_ok.mpr ⟨_, view.records, read⟩
  simp only [Files.load, view.hardState, view.snapshot, Files.readWAL, accepted]
  split
  · rfl
  · simp only [perform_bind, call_bind]
    congr
    funext cut
    cases cut <;> rfl

theorem View.load_refused {codec : LineCodec} {files : Files} {disk : Disk}
    (view : View codec files disk) {error : WalError} (read : readWAL disk.wal = .error error) :
    ∃ failure, files.load codec = ret (.error failure) := by
  cases lines : readLines codec {} (splitLines newline (files.wal.getD [])).1 with
  | error failure =>
      refine ⟨failure, ?_⟩
      simp only [Files.load, view.hardState, view.snapshot, Files.readWAL, lines]
      rfl
  | ok data =>
      rcases readLines_ok.mp lines with ⟨records, parsed, accepted⟩
      have same : records = disk.wal.getD [] := Option.some.inj (parsed.symm.trans view.records)
      rw [same] at accepted
      cases accepted.symm.trans read

/-- The directory stands for the records. When it is intact, the WAL ends with a complete line. -/
structure Shows (codec : FileCodec) (intact : Bool) (dir : Directory) (disk : Disk) : Prop where
  view : View codec.toLineCodec dir.files disk.plain
  ghost : dir.history = (disk.snapshot.getD {}).history
  solid : dir.files.Solid codec.toLineCodec
  whole : intact = true → (splitLines newline (dir.files.wal.getD [])).2 = []

namespace Shows

variable {codec : FileCodec} {intact : Bool} {dir : Directory} {disk : Disk}
  {entries : List LogEntry}

theorem empty : Shows codec intact {} {} := by
  refine ⟨⟨rfl, rfl, rfl⟩, rfl, ?_, fun _ => rfl⟩
  intro line member
  cases member

theorem weaken (shows : Shows codec intact dir disk) : Shows codec false dir disk :=
  ⟨shows.view, shows.ghost, shows.solid, fun claimed => absurd claimed Bool.false_ne_true⟩

theorem written (shows : Shows codec intact dir disk) (records : List WalRecord) (intact' : Bool) :
    Shows codec intact' { dir with files := { dir.files with wal := some (codec.write records) } }
      { disk with wal := some records } := by
  refine ⟨shows.view.written fun record _ => codec.fits_all record, shows.ghost,
    solid_write records, fun _ => ?_⟩
  simp only [Option.getD_some, splitLines_write]

theorem cut (shows : Shows codec intact dir disk) (reached : Nat) :
    Shows codec false { dir with files := dir.files.cut ((dir.files.wal.getD []).length -
      (splitLines newline (dir.files.wal.getD [])).2.length + reached) } disk :=
  ⟨shows.view.cut reached, shows.ghost, shows.solid.cut _, fun claimed =>
    absurd claimed Bool.false_ne_true⟩

theorem trimmed (shows : Shows codec intact dir disk) :
    Shows codec true { dir with files := dir.files.trimmed } disk := by
  refine ⟨shows.view.trimmed, shows.ghost, ?_, fun _ => ?_⟩
  · rw [trimmed_cut]
    exact shows.solid.cut _
  · rw [Files.trimmed_lines]

theorem appends (shows : Shows codec true dir disk) (some : entries ≠ []) :
    dir.files.appendedLines codec.toLineCodec (codec.entryLines entries) =
      .some ((appendedRecords disk entries).map codec.encode) := by
  have blank : dir.files.wal.getD [] = [] ↔ disk.wal.getD [] = [] :=
    shows.view.blank shows.solid (shows.whole rfl)
  have base := disk.plain_base
  simp only [snapshotBaseLocked, Prod.mk.injEq] at base
  have lines : codec.entryLines entries ≠ [] := by simpa [LineCodec.entryLines] using some
  have listed : (entries.map WalRecord.entry).map codec.encode = codec.entryLines entries :=
    List.map_map
  simp only [Files.appendedLines, if_neg lines, appendedRecords, snapshotBaseLocked, blank,
    shows.view.snapshot, Option.map_some, base]
  split
  · rw [walImage, List.map_cons, listed]
  · rw [listed]

theorem extended (shows : Shows codec true dir disk) (records : List WalRecord) (cut : Nat) :
    Shows codec false { dir with files := dir.files.extended ((codec.write records).take cut) }
      { disk with wal := some (disk.wal.getD [] ++
        records.take (wholeLines cut (records.map codec.encode))) } := by
  have lines : (dir.files.extended ((codec.write records).take cut)).walLines =
      dir.files.walLines ++ (records.take (wholeLines cut (records.map codec.encode))).map
        codec.encode := by
    simp only [Files.walLines, Files.extended, Option.getD_some, LineCodec.write,
      splitLines_append _ (plain_encode records), shows.whole rfl, glue_nil, List.map_take]
  have sturdy : ∀ line ∈ records.map codec.encode, codec.toLineCodec.Sturdy line := by
    intro line member
    rcases List.mem_map.mp member with ⟨record, -, rfl⟩
    exact codec.sturdy_encode record
  refine ⟨⟨shows.view.hardState, shows.view.snapshot, ?_⟩, shows.ghost,
    shows.solid.appended sturdy cut,
    fun claimed => absurd claimed Bool.false_ne_true⟩
  rw [lines, parseLines_append, shows.view.records, Option.bind_some,
    parseLines_encode fun record _ => codec.fits_all record]
  rfl

theorem extended_whole (shows : Shows codec true dir disk) (records : List WalRecord) :
    (splitLines newline ((dir.files.extended (codec.write records)).wal.getD [])).2 = [] := by
  have content := splitLines_eq newline (dir.files.wal.getD [])
  rw [shows.whole rfl, List.append_nil] at content
  have lines : Plain newline ((splitLines newline (dir.files.wal.getD [])).1 ++
      records.map codec.encode) :=
    content.2.1.append (plain_encode records)
  have read := splitLines_joinLines lines
  rw [joinLines_append, ← content.1] at read
  simp only [Files.extended, Option.getD_some]
  exact congrArg Prod.snd read

theorem append (shows : Shows codec true dir disk) :
    Shows codec true (Directory.complete codec (.appendEntries entries) dir)
      (Disk.complete (.appendEntries entries) disk) := by
  by_cases none : entries = []
  · subst none
    exact shows
  · have lines : codec.entryLines entries ≠ [] := by simpa [LineCodec.entryLines] using none
    have all := shows.extended (appendedRecords disk entries)
      (codec.write (appendedRecords disk entries)).length
    rw [List.take_length, LineCodec.write, wholeLines_all, List.length_map, List.take_length] at all
    simp only [Directory.complete, Disk.complete, Files.appendLines, if_neg none, if_neg lines,
      shows.appends none, Option.map_some, Option.getD_some]
    exact ⟨all.view, all.ghost, all.solid, fun _ => shows.extended_whole _⟩

theorem tornAppend (shows : Shows codec true dir disk) (reached : Nat) :
    ∃ other, Shows codec false (Directory.torn codec (.appendEntries entries) (reached + 1) dir)
      (Disk.torn (.appendEntries entries) other disk) := by
  by_cases none : entries = []
  · subst none
    exact ⟨0, shows.weaken⟩
  · have lines : codec.entryLines entries ≠ [] := by simpa [LineCodec.entryLines] using none
    refine ⟨wholeLines reached ((appendedRecords disk entries).map codec.encode) + 1, ?_⟩
    simp only [Directory.torn, Disk.torn, Files.tornAppend, if_neg none, if_neg lines,
      shows.appends none, Option.map_some, Option.getD_some]
    exact shows.extended (appendedRecords disk entries) reached

theorem replaced (shows : Shows codec intact dir disk) (op : StoreOp)
    (renamed : op.appends = false) :
    Shows codec intact (Directory.complete codec op dir) (Disk.complete op disk) := by
  cases op with
  | saveHardState hs =>
      exact ⟨⟨codec.read_hardState hs, shows.view.snapshot, shows.view.records⟩, shows.ghost,
        shows.solid, shows.whole⟩
  | appendEntries entries => cases renamed
  | replaceEntries entries =>
      have base := disk.plain_base
      simp only [snapshotBaseLocked, Prod.mk.injEq] at base
      simp only [Directory.complete, Disk.complete, Files.replaceEntries, shows.view.snapshot,
        Option.map_some, Option.getD_some, snapshotBaseLocked, base]
      exact shows.written _ intact
  | saveSnapshot snapshot =>
      exact ⟨⟨shows.view.hardState, codec.read_snapshot snapshot, shows.view.records⟩, rfl,
        shows.solid, shows.whole⟩
  | rewriteWAL baseIndex baseTerm entries => exact shows.written _ intact

end Shows

theorem torn_replaced (codec : FileCodec) (dir : Directory) (disk : Disk) {op : StoreOp}
    (reached : Nat) (renamed : op.appends = false) :
    Directory.torn codec op (reached + 1) dir = Directory.complete codec op dir ∧
      Disk.torn op 1 disk = Disk.complete op disk := by
  cases op with
  | appendEntries entries => cases renamed
  | _ => exact ⟨rfl, rfl⟩

/-- The records follow the bytes through every call, as long as nothing is appended behind an
unfinished line. -/
theorem fileDevice_mirror (codec : FileCodec) :
    Mirror (fileDevice codec) store StoreOp.appends (Shows codec) where
  weaken := Shows.weaken
  complete := by
    intro op intact dir disk safe shows
    cases fragile : op.appends with
    | false => exact shows.replaced op fragile
    | true =>
        obtain rfl : intact = true := safe fragile
        cases op with
        | appendEntries entries => exact shows.append
        | _ => cases fragile
  torn := by
    intro op reached intact dir disk safe shows
    cases reached with
    | zero =>
        refine ⟨0, ?_⟩
        rw [(fileDevice codec).torn_zero, store.torn_zero]
        cases op.appends
        · simpa using shows
        · simpa using shows.weaken
    | succ reached =>
        cases fragile : op.appends with
        | false =>
            rcases torn_replaced codec dir disk reached fragile with ⟨bytes, records⟩
            refine ⟨1, ?_⟩
            simp only [fileDevice, store, bytes, records, Bool.not_false, Bool.and_true]
            exact shows.replaced op fragile
        | true =>
            obtain rfl : intact = true := safe fragile
            cases op with
            | appendEntries entries => exact shows.tornAppend reached
            | _ => cases fragile

end GoRaftKV.Storage
