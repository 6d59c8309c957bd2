import GoRaftKV.Storage.Recovery
import GoRaftKV.Storage.WalFile

namespace GoRaftKV.Storage

open Library Program

variable {codec : LineCodec} {files after : Files} {disk : Disk} {hs : HardState} {snap : Snapshot}
  {entries : List LogEntry} {lines more : List Content} {records : List WalRecord} {rewrite : Bool}

/-- The records on some lines, when all of them can be decoded. -/
def parseLines (codec : LineCodec) : List Content → Option (List WalRecord)
  | [] => some []
  | line :: lines =>
      if codec.trimSpace line = [] then parseLines codec lines
      else
        match codec.decodeWALLine (codec.trimSpace line) with
        | none => none
        | some record => (parseLines codec lines).map (record :: ·)

theorem readLines_ok {data result : WalData} :
    readLines codec data lines = .ok result ↔
      ∃ records, parseLines codec lines = some records ∧ readRecords data records = .ok result := by
  induction lines generalizing data with
  | nil =>
      constructor
      · intro read
        cases read
        exact ⟨[], rfl, rfl⟩
      · rintro ⟨records, parsed, read⟩
        cases parsed
        cases read
        rfl
  | cons line lines ih =>
      by_cases blank : codec.trimSpace line = []
      · simp only [readLines, parseLines, if_pos blank]
        exact ih
      · simp only [readLines, parseLines, if_neg blank]
        cases codec.decodeWALLine (codec.trimSpace line) with
        | none => simp
        | some record =>
            simp only [Option.map_eq_some_iff]
            constructor
            · intro read
              cases step : readRecord data record with
              | error error =>
                  rw [step] at read
                  cases read
              | ok next =>
                  rw [step] at read
                  rcases ih.mp read with ⟨records, parsed, rest⟩
                  refine ⟨record :: records, ⟨records, parsed, rfl⟩, ?_⟩
                  simp only [readRecords, step]
                  exact rest
            · rintro ⟨_, ⟨records, parsed, rfl⟩, rest⟩
              simp only [readRecords] at rest
              cases step : readRecord data record with
              | error error =>
                  rw [step] at rest
                  cases rest
              | ok next =>
                  rw [step] at rest
                  exact ih.mpr ⟨records, parsed, rest⟩

theorem parseLines_append : parseLines codec (lines ++ more) =
    (parseLines codec lines).bind fun front => (parseLines codec more).map (front ++ ·) := by
  induction lines with
  | nil => simp [parseLines]
  | cons line lines ih =>
      simp only [List.cons_append, parseLines, ih]
      split
      · rfl
      · cases codec.decodeWALLine (codec.trimSpace line) with
        | none => rfl
        | some record =>
            cases parseLines codec lines with
            | none => rfl
            | some front => cases parseLines codec more <;> rfl

theorem parseLines_encode (fit : ∀ record ∈ records, codec.Fits record) :
    parseLines codec (records.map codec.encode) = some records := by
  induction records with
  | nil => rfl
  | cons record records ih =>
      have decoded := codec.decode_encode record (fit record List.mem_cons_self)
      have rest := ih fun other later => fit other (List.mem_cons_of_mem _ later)
      have solid : ¬ codec.encode record = [] := by
        have trimmed := codec.trimSpace_append [] record
        rwa [List.nil_append, codec.trimSpace_encode] at trimmed
      simp only [List.map_cons, parseLines, codec.trimSpace_encode, if_neg solid, decoded, rest,
        Option.map_some]

theorem parseLines_fits (parsed : parseLines codec lines = some records) :
    ∀ record ∈ records, codec.Fits record := by
  induction lines generalizing records with
  | nil =>
      cases parsed
      simp
  | cons line lines ih =>
      simp only [parseLines] at parsed
      split at parsed
      · exact ih parsed
      · split at parsed
        · cases parsed
        · rename_i first decoded
          rcases Option.map_eq_some_iff.mp parsed with ⟨rest, others, rfl⟩
          intro record member
          rcases List.mem_cons.mp member with rfl | later
          · exact codec.decode_fits _ _ decoded
          · exact ih others record later

theorem plain_encode (records : List WalRecord) : Plain newline (records.map codec.encode) := by
  intro line member
  rcases List.mem_map.mp member with ⟨record, -, rfl⟩
  exact codec.encode_plain record

theorem splitLines_write (records : List WalRecord) :
    splitLines newline (codec.write records) = (records.map codec.encode, []) :=
  splitLines_joinLines (plain_encode records)

def Files.walLines (files : Files) : List Content := (splitLines newline (files.wal.getD [])).1

/-- What the three files say, with the WAL as the records on its complete lines. -/
structure View (codec : LineCodec) (files : Files) (disk : Disk) : Prop where
  hardState : readJSONFile codec.readHardState {} files.hardState = some (disk.hardState.getD {})
  snapshot : readJSONFile codec.readSnapshot {} files.snapshot = some (disk.snapshot.getD {})
  records : parseLines codec files.walLines = some (disk.wal.getD [])

/-- The files after an unfinished last line has been cut off. -/
def Files.trimmed (files : Files) : Files :=
  { files with
    wal := files.wal.map fun content => joinLines newline (splitLines newline content).1 }

def Files.settled (codec : LineCodec) (files : Files) (entries : List LogEntry) (snap : Snapshot)
    (rewrite : Bool) : Files :=
  if rewrite = true then
    { files with
      wal := some (codec.write (walImage snap.lastIncludedIndex snap.lastIncludedTerm entries)) }
  else files.trimmed

theorem take_complete (content : Content) (reached : Nat) :
    content.take (content.length - (splitLines newline content).2.length + reached) =
      joinLines newline (splitLines newline content).1 ++ (splitLines newline content).2.take
        reached := by
  have whole := (splitLines_eq newline content).1
  generalize splitLines newline content = parts at whole ⊢
  subst whole
  have start : (joinLines newline parts.1 ++ parts.2).length - parts.2.length =
      (joinLines newline parts.1).length := by
    rw [List.length_append]
    omega
  rw [start]
  exact List.take_length_add_append reached

def Files.cut (files : Files) (size : Nat) : Files :=
  { files with wal := files.wal.map (·.take size) }

theorem walLines_cut (reached : Nat) {content : Content} (present : files.wal = some content) :
    (files.cut (content.length - (splitLines newline content).2.length + reached)).walLines =
      files.walLines := by
  have whole := splitLines_eq newline content
  have clean : newline ∉ (splitLines newline content).2.take reached :=
    fun member => whole.2.2 (List.mem_of_mem_take member)
  simp only [Files.walLines, Files.cut, present, Option.map_some, Option.getD_some]
  rw [take_complete, splitLines_join whole.2.1 clean]

theorem View.cut (view : View codec files disk) (reached : Nat) :
    View codec (files.cut ((files.wal.getD []).length -
      (splitLines newline (files.wal.getD [])).2.length + reached)) disk := by
  refine ⟨view.hardState, view.snapshot, ?_⟩
  cases missing : files.wal with
  | none =>
      have same (size : Nat) : (files.cut size).walLines = files.walLines := by
        simp only [Files.walLines, Files.cut, missing, Option.map_none]
      rw [same]
      exact view.records
  | some content =>
      simp only [Option.getD_some]
      rw [walLines_cut reached missing]
      exact view.records

theorem Files.trimmed_lines (files : Files) :
    splitLines newline (files.trimmed.wal.getD []) = (files.walLines, []) := by
  cases missing : files.wal with
  | none =>
      simp only [Files.walLines, Files.trimmed, missing, Option.map_none, Option.getD_none]
      rfl
  | some content =>
      have read := splitLines_joinLines (splitLines_eq newline content).2.1
      simp only [Files.walLines, Files.trimmed, missing, Option.map_some, Option.getD_some, read]

theorem View.trimmed (view : View codec files disk) : View codec files.trimmed disk := by
  refine ⟨view.hardState, view.snapshot, ?_⟩
  rw [Files.walLines, files.trimmed_lines]
  exact view.records

theorem View.written (view : View codec files disk) (fit : ∀ record ∈ records, codec.Fits record) :
    View codec { files with wal := some (codec.write records) }
      { disk with wal := some records } := by
  refine ⟨view.hardState, view.snapshot, ?_⟩
  simp only [Files.walLines, Option.getD_some, splitLines_write]
  exact parseLines_encode fit

theorem View.base_fits (view : View codec files disk) :
    codec.Fits (.base (disk.snapshot.getD {}).lastIncludedIndex
      (disk.snapshot.getD {}).lastIncludedTerm) := by
  have saved := view.snapshot
  generalize disk.snapshot.getD {} = snap at saved ⊢
  cases present : files.snapshot with
  | none =>
      rw [present] at saved
      cases saved
      exact codec.zero_fits
  | some content =>
      rw [present] at saved
      exact codec.snapshot_fits content snap saved

theorem View.image_fits (view : View codec files disk)
    (loads : disk.load = .ok ⟨hs, entries, snap, rewrite⟩) :
    ∀ record ∈ walImage snap.lastIncludedIndex snap.lastIncludedTerm entries,
      codec.Fits record := by
  -- What `Load` would write into the WAL has been read.
  have current : disk.snapshot.getD {} = snap := (Disk.load_records loads).1
  intro record member
  rcases List.mem_cons.mp member with rfl | later
  · rw [← current]
    exact view.base_fits
  · rcases List.mem_map.mp later with ⟨entry, loaded, rfl⟩
    exact parseLines_fits view.records _ (Disk.load_recorded loads loaded)

/-- `Load` succeeds on the files with this result. -/
def Files.Reloads (codec : LineCodec) (files : Files) (hs : HardState) (entries : List LogEntry)
    (snap : Snapshot) : Prop :=
  ∃ disk rewrite, View codec files disk ∧ disk.load = .ok ⟨hs, entries, snap, rewrite⟩

theorem Disk.load_rewrite (loads : disk.load = .ok ⟨hs, entries, snap, true⟩) :
    0 < (disk.snapshot.getD {}).lastIncludedIndex := by
  rcases Disk.load_cases loads with ⟨data, -, ⟨positive, -⟩ | ⟨-, -, same⟩⟩
  · exact positive
  · cases same

theorem trimmed_complete (complete : (splitLines newline (files.wal.getD [])).2 = []) :
    files.trimmed = files := by
  rcases files with ⟨hardState, _ | content, snapshot⟩
  · rfl
  · have whole := (splitLines_eq newline content).1
    simp only [Option.getD_some] at complete
    rw [complete, List.append_nil] at whole
    simp only [Files.trimmed, Option.map_some, ← whole]

theorem trimmed_cut : files.trimmed = files.cut ((files.wal.getD []).length -
    (splitLines newline (files.wal.getD [])).2.length) := by
  rcases files with ⟨hardState, _ | content, snapshot⟩
  · rfl
  · have cut := take_complete content 0
    rw [Nat.add_zero, List.take_zero, List.append_nil] at cut
    simp only [Files.trimmed, Files.cut, Option.map_some, Option.getD_some, cut]

theorem View.reloads_written (view : View codec files disk)
    (loads : disk.load = .ok ⟨hs, entries, snap, true⟩) :
    Files.Reloads codec { files with
      wal := some (codec.write (walImage snap.lastIncludedIndex snap.lastIncludedTerm entries)) }
      hs entries snap := by
  have positive := Disk.load_rewrite loads
  have anchored : disk.Anchored := fun zero => absurd zero (by omega)
  have contiguous := Disk.load_contiguous loads anchored
  rcases Disk.load_records loads with ⟨current, saved, -⟩
  refine ⟨_, false, view.written (view.image_fits loads), ?_⟩
  rw [Disk.load_image contiguous current, saved]

theorem View.readWAL_wp (view : View codec files disk) {data : WalData}
    (read : readWAL disk.wal = .ok data) {crash : Files → Prop}
    (stops : ∀ crashed, View codec crashed disk → crash crashed) :
    (files.readWAL codec).wp (loadDevice codec)
      (fun result after => result = .ok data ∧ after = files.trimmed) crash files := by
  have accepted : readLines codec {} files.walLines = .ok data :=
    readLines_ok.mpr ⟨_, view.records, read⟩
  unfold Files.walLines at accepted
  simp only [Files.readWAL]
  rw [accepted]
  simp only
  split
  · rename_i complete
    exact ⟨rfl, (trimmed_complete complete).symm⟩
  · refine ⟨⟨rfl, trimmed_cut.symm⟩, fun reached => ?_⟩
    cases reached with
    | zero => exact stops _ view
    | succ reached => exact stops _ (view.cut reached)

/-- `Load` on files that say `disk`, with a crash allowed at every write. -/
theorem View.load_wp (view : View codec files disk)
    (loads : disk.load = .ok ⟨hs, entries, snap, rewrite⟩) :
    (files.load codec).wp (loadDevice codec)
      (fun result after => result = .ok (hs, entries, snap) ∧
        after = files.settled codec entries snap rewrite)
      (fun crashed => crashed.Reloads codec hs entries snap) files := by
  have stops (crashed : Files) (same : View codec crashed disk) :
      crashed.Reloads codec hs entries snap :=
    ⟨disk, rewrite, same, loads⟩
  simp only [Files.load, view.hardState, view.snapshot]
  rcases Disk.load_cases loads with ⟨data, read, cases⟩
  apply wp_bind
  apply wp_mono _ _ _ (fun _ stopped => stopped) (view.readWAL_wp read stops)
  rintro result after ⟨rfl, rfl⟩
  simp only [reconcile]
  rcases cases with ⟨positive, same⟩ | ⟨zero, bottom, same⟩
  · rw [if_pos positive]
    simp only [Loaded.mk.injEq] at same
    rcases same with ⟨rfl, rfl, rfl, rfl⟩
    split
    · rename_i rewritten
      have written := view.reloads_written (rewritten ▸ loads)
      rw [Files.settled, if_pos rewritten]
      refine ⟨⟨rfl, rfl⟩, fun reached => ?_⟩
      cases reached with
      | zero => exact stops _ view.trimmed
      | succ reached => exact written
    · rename_i kept
      rw [Files.settled, if_neg kept]
      exact ⟨rfl, rfl⟩
  · have noBase : ¬ (data.hasBase = true ∧ 0 < data.baseIndex) := by
      rintro ⟨hasBase, positive⟩
      have base := bottom hasBase
      omega
    rw [if_neg (by omega), if_neg noBase]
    cases same
    exact ⟨rfl, rfl⟩

theorem View.refused_wp (view : View codec files disk) {data : WalData}
    (read : readWAL disk.wal = .ok data) (zero : (disk.snapshot.getD {}).lastIncludedIndex = 0)
    (based : data.hasBase = true ∧ 0 < data.baseIndex) :
    (files.load codec).wp (loadDevice codec)
      (fun result _ => result = .error (.snapshotMissing data.baseIndex)) (fun _ => True)
        files := by
  simp only [Files.load, view.hardState, view.snapshot]
  apply wp_bind
  apply wp_mono _ _ _ (fun _ stopped => stopped) (view.readWAL_wp read fun _ _ => trivial)
  rintro result after ⟨rfl, rfl⟩
  simp only [reconcile]
  rw [if_neg (by omega), if_pos based]
  rfl

theorem Disk.load_of_readWAL {data : WalData} (read : readWAL disk.wal = .ok data) :
    (∃ loaded, disk.load = .ok loaded) ∨
      ((disk.snapshot.getD {}).lastIncludedIndex = 0 ∧ data.hasBase = true ∧
        0 < data.baseIndex) := by
  simp only [Disk.load, read]
  split
  · exact Or.inl ⟨_, rfl⟩
  · rename_i zero
    split
    · rename_i based
      exact Or.inr ⟨Nat.eq_zero_of_not_pos zero, based⟩
    · exact Or.inl ⟨_, rfl⟩

theorem Files.Loads.readable (loads : files.Loads codec hs entries snap after) :
    ∃ disk data, View codec files disk ∧ Storage.readWAL disk.wal = .ok data := by
  unfold Files.Loads Files.load at loads
  cases state : readJSONFile codec.readHardState {} files.hardState with
  | none =>
      rw [state] at loads
      cases loads
  | some hardState =>
      cases saved : readJSONFile codec.readSnapshot {} files.snapshot with
      | none =>
          rw [state, saved] at loads
          cases loads
      | some snapshot =>
          rw [state, saved] at loads
          cases read : readLines codec {} files.walLines with
          | error error =>
              unfold Files.walLines at read
              simp only [Files.readWAL] at loads
              rw [read] at loads
              cases loads
          | ok data =>
              rcases readLines_ok.mp read with ⟨records, parsed, accepted⟩
              exact ⟨⟨some hardState, some records, some snapshot⟩, data, ⟨state, saved, parsed⟩,
                accepted⟩

theorem Files.Loads.view (loads : files.Loads codec hs entries snap after) :
    ∃ disk rewrite, View codec files disk ∧ disk.load = .ok ⟨hs, entries, snap, rewrite⟩ ∧
      after = files.settled codec entries snap rewrite := by
  rcases loads.readable with ⟨disk, data, view, read⟩
  rcases Disk.load_of_readWAL read with ⟨⟨hs', entries', snap', rewrite⟩, loaded⟩ | ⟨zero, based⟩
  · have meets := wp_exec _ _ [] (view.load_wp loaded) (by decide)
    rw [loads] at meets
    rcases meets with ⟨result, left⟩
    simp only [Except.ok.injEq, Prod.mk.injEq] at result
    rcases result with ⟨rfl, rfl, rfl⟩
    exact ⟨disk, rewrite, view, loaded, left⟩
  · have meets := wp_exec _ _ [] (view.refused_wp read zero based) (by decide)
    rw [loads] at meets
    cases meets

theorem View.loads (view : View codec files disk)
    (loaded : disk.load = .ok ⟨hs, entries, snap, rewrite⟩) :
    files.Loads codec hs entries snap (files.settled codec entries snap rewrite) := by
  have meets := wp_exec _ _ [] (view.load_wp loaded) (by decide)
  rcases exec_value (files.load codec) files with ⟨left, ended⟩
  rw [ended] at meets
  rcases meets with ⟨value, rfl⟩
  rw [value] at ended
  exact ended

theorem Files.Reloads.loads (reloads : files.Reloads codec hs entries snap) :
    ∃ after, files.Loads codec hs entries snap after := by
  rcases reloads with ⟨disk, rewrite, view, loaded⟩
  exact ⟨_, view.loads loaded⟩

end GoRaftKV.Storage
