import GoRaftKV.Storage.RawEntries
import GoRaftKV.Storage.Reload

namespace GoRaftKV.Storage

open Library Program

variable {codec : LineCodec} {files after : Files} {disk : Disk} {hs : HardState} {snap : Snapshot}
  {log : List LogEntry} {lines : List Content} {records : List WalRecord}

/-! ### Appending lines -/

/-- The lines that `AppendEntries` writes, given those of its entries: a missing or empty file first
gets its base record, for which `snapshot.json` has to be read. -/
def Files.appendedLines (codec : LineCodec) (files : Files) (lines : List Content) :
    Option (List Content) :=
  if lines = [] then some []
  else if files.wal.getD [] = [] then
    (readJSONFile codec.readSnapshot {} files.snapshot).map fun snap =>
      codec.encode (.base snap.lastIncludedIndex snap.lastIncludedTerm) :: lines
  else some lines

/-- The WAL opened for appending and extended by some bytes. -/
def Files.extended (files : Files) (bytes : Content) : Files :=
  { files with wal := some (files.wal.getD [] ++ bytes) }

def Files.appendLines (codec : LineCodec) (files : Files) (lines : List Content) : Option Files :=
  if lines = [] then some files
  else (files.appendedLines codec lines).map fun written =>
    files.extended (joinLines newline written)

/-- `AppendEntries` stopped before the file was opened, or with some of the bytes written. -/
def Files.tornAppend (codec : LineCodec) (files : Files) (lines : List Content) : Nat → Option Files
  | 0 => some files
  | reached + 1 =>
      if lines = [] then some files
      else (files.appendedLines codec lines).map fun written =>
        files.extended ((joinLines newline written).take reached)

theorem Files.appendedLines_sturdy {written : List Content}
    (appends : files.appendedLines codec lines = some written)
    (sturdy : ∀ line ∈ lines, codec.Sturdy line) : ∀ line ∈ written, codec.Sturdy line := by
  unfold Files.appendedLines at appends
  split at appends
  · cases appends
    simp
  split at appends
  · rcases Option.map_eq_some_iff.mp appends with ⟨snap, -, rfl⟩
    intro line member
    rcases List.mem_cons.mp member with rfl | later
    · exact codec.sturdy_encode _
    · exact sturdy line later
  · cases appends
    exact sturdy

theorem plain_sturdy (sturdy : ∀ line ∈ lines, codec.Sturdy line) : Plain newline lines :=
  fun line member => (sturdy line member).plain

/-- No complete line of the WAL is blank. -/
def Files.Solid (codec : LineCodec) (files : Files) : Prop :=
  ∀ line ∈ files.walLines, codec.trimSpace line ≠ []

theorem solid_lines (sturdy : ∀ line ∈ lines, codec.Sturdy line) :
    Files.Solid codec { files with wal := some (joinLines newline lines) } := by
  intro line member
  simp only [Files.walLines, Option.getD_some, splitLines_joinLines (plain_sturdy sturdy)] at member
  exact (sturdy line member).solid []

theorem solid_write (records : List WalRecord) :
    Files.Solid codec { files with wal := some (codec.write records) } := by
  apply solid_lines
  intro line member
  rcases List.mem_map.mp member with ⟨stored, -, rfl⟩
  exact codec.sturdy_encode stored

theorem Files.Solid.cut (solid : files.Solid codec) (size : Nat) :
    (files.cut size).Solid codec := by
  intro line member
  apply solid
  cases present : files.wal with
  | none =>
      simp only [Files.walLines, Files.cut, present, Option.map_none] at member ⊢
      exact member
  | some content =>
      simp only [Files.walLines, Files.cut, present, Option.map_some, Option.getD_some] at member ⊢
      exact (splitLines_take newline content size).mem member

theorem Files.Solid.appended (solid : files.Solid codec)
    (sturdy : ∀ line ∈ lines, codec.Sturdy line) (cut : Nat) :
    (files.extended ((joinLines newline lines).take cut)).Solid codec := by
  intro line member
  simp only [Files.walLines, Files.extended, Option.getD_some,
    splitLines_append _ (plain_sturdy sturdy), List.mem_append] at member
  rcases member with old | new
  · exact solid line old
  · have arrived : ∀ line ∈ lines.take (wholeLines cut lines), codec.Sturdy line :=
      fun line member => sturdy line (List.mem_of_mem_take member)
    -- The first new line may stand behind an unfinished one.
    cases taken : lines.take (wholeLines cut lines) with
    | nil =>
        rw [taken] at new
        cases new
    | cons first rest =>
        rw [taken] at new arrived
        rcases List.mem_cons.mp new with rfl | later
        · exact (arrived first List.mem_cons_self).solid _
        · exact (arrived line (List.mem_cons_of_mem _ later)).solid []

theorem Files.Solid.append {final : Files} (solid : files.Solid codec)
    (sturdy : ∀ line ∈ lines, codec.Sturdy line)
    (appended : files.appendLines codec lines = some final) : final.Solid codec := by
  unfold Files.appendLines at appended
  split at appended
  · cases appended
    exact solid
  · rcases Option.map_eq_some_iff.mp appended with ⟨written, appends, rfl⟩
    have all := solid.appended (Files.appendedLines_sturdy appends sturdy)
      (joinLines newline written).length
    rwa [List.take_length] at all

theorem Files.Solid.torn {torn : Files} {reached : Nat} (solid : files.Solid codec)
    (sturdy : ∀ line ∈ lines, codec.Sturdy line)
    (stopped : files.tornAppend codec lines reached = some torn) : torn.Solid codec := by
  cases reached with
  | zero =>
      cases stopped
      exact solid
  | succ reached =>
      simp only [Files.tornAppend] at stopped
      split at stopped
      · cases stopped
        exact solid
      · rcases Option.map_eq_some_iff.mp stopped with ⟨written, appends, rfl⟩
        exact solid.appended (Files.appendedLines_sturdy appends sturdy) reached

theorem Files.Solid.loadOp (solid : files.Solid codec) (op : LoadOp) :
    ((loadDevice codec).complete op files).Solid codec := by
  cases op with
  | truncate size => exact solid.cut size
  | writeWALAtomic baseIndex baseTerm entries => exact solid_write _

theorem Files.Solid.tornLoadOp (solid : files.Solid codec) (op : LoadOp) (reached : Nat) :
    ((loadDevice codec).torn op reached files).Solid codec := by
  cases reached with
  | zero =>
      rw [(loadDevice codec).torn_zero]
      exact solid
  | succ reached =>
      cases op with
      | truncate size => exact solid.cut (size + reached)
      | writeWALAtomic baseIndex baseTerm entries => exact solid_write _

/-- The files say `disk`, with nothing behind the last complete line, and `disk` holds the log. -/
structure Clean (codec : LineCodec) (files : Files) (disk : Disk) (snap : Snapshot)
    (log : List LogEntry) :
    Prop where
  view : View codec files disk
  whole : (splitLines newline (files.wal.getD [])).2 = []
  blank : files.wal.getD [] = [] ↔ disk.wal.getD [] = []
  records : Records disk.wal snap log
  current : disk.snapshot.getD {} = snap
  contiguous : 0 < snap.lastIncludedIndex → Contiguous snap.lastIncludedIndex log

theorem parseLines_length {lines : List Content} (solid : ∀ line ∈ lines, codec.trimSpace line ≠ [])
    (parsed : parseLines codec lines = some records) : records.length = lines.length := by
  -- Without blank lines, every line has its record.
  induction lines generalizing records with
  | nil =>
      cases parsed
      rfl
  | cons line lines ih =>
      simp only [parseLines, if_neg (solid line List.mem_cons_self)] at parsed
      split at parsed
      · cases parsed
      · rcases Option.map_eq_some_iff.mp parsed with ⟨rest, others, rfl⟩
        have same := ih (fun line member => solid line (List.mem_cons_of_mem _ member)) others
        simp only [List.length_cons, same]

theorem View.blank (view : View codec files disk) (solid : files.Solid codec)
    (whole : (splitLines newline (files.wal.getD [])).2 = []) :
    files.wal.getD [] = [] ↔ disk.wal.getD [] = [] := by
  have lengths := parseLines_length solid view.records
  have content := (splitLines_eq newline (files.wal.getD [])).1
  rw [whole, List.append_nil] at content
  constructor
  · intro empty
    rw [Files.walLines, empty] at lengths
    exact List.length_eq_zero_iff.mp lengths
  · intro empty
    rw [empty] at lengths
    have none : files.walLines = [] := List.length_eq_zero_iff.mp lengths.symm
    rw [content]
    unfold Files.walLines at none
    rw [none]
    rfl

/-- `Load` after an append of which `cut` bytes have reached the file: the lines that arrived are
records that continue the log. -/
theorem Clean.grow (clean : Clean codec files disk snap log)
    (sturdy : ∀ line ∈ lines, codec.Sturdy line) {cut : Nat}
    (arrived : lines.take (wholeLines cut lines) = records.map codec.encode)
    (fit : ∀ record ∈ records, codec.Fits record)
    (grown : Records (some (disk.wal.getD [] ++ records)) snap
    (log ++ records.filterMap WalRecord.toEntry)) (contiguous : 0 < snap.lastIncludedIndex →
      Contiguous snap.lastIncludedIndex (log ++ records.filterMap WalRecord.toEntry)) :
    (files.extended ((joinLines newline lines).take cut)).Loads codec (disk.hardState.getD {})
        (log ++ records.filterMap WalRecord.toEntry) snap (files.extended (codec.write records)) ∧
      Clean codec (files.extended (codec.write records))
        { disk with wal := some (disk.wal.getD [] ++ records) } snap
        (log ++ records.filterMap WalRecord.toEntry) := by
  have content := (splitLines_eq newline (files.wal.getD [])).1
  rw [clean.whole, List.append_nil] at content
  have after : (files.extended ((joinLines newline lines).take cut)).walLines =
      files.walLines ++ records.map codec.encode := by
    simp only [Files.walLines, Files.extended, Option.getD_some,
      splitLines_append _ (plain_sturdy sturdy), clean.whole, glue_nil, arrived]
  have trimmed : (files.extended ((joinLines newline lines).take cut)).trimmed =
      files.extended (codec.write records) := by
    simp only [Files.walLines, Files.extended, Option.getD_some] at after
    simp only [Files.trimmed, Files.extended, Option.map_some, after, joinLines_append, ← content]
    rfl
  have view : View codec (files.extended ((joinLines newline lines).take cut))
      { disk with wal := some (disk.wal.getD [] ++ records) } := by
    refine ⟨clean.view.hardState, clean.view.snapshot, ?_⟩
    rw [after, parseLines_append, clean.view.records, Option.bind_some, parseLines_encode fit]
    rfl
  constructor
  · have loaded := @Records.load _ _ { disk with wal := some (disk.wal.getD [] ++ records) } grown
      contiguous clean.current
    have loads := view.loads loaded
    rw [Files.settled, if_neg (by decide), trimmed] at loads
    exact loads
  · rw [← trimmed]
    refine ⟨view.trimmed, ?_, ?_, grown, clean.current, contiguous⟩
    · rw [Files.trimmed_lines]
    · have nothing : codec.write records = [] ↔ records = [] := by
        cases records <;> simp [LineCodec.write]
      rw [trimmed]
      simp only [Files.extended, Option.getD_some, List.append_eq_nil_iff, clean.blank, nothing]

theorem Clean.reload (clean : Clean codec files disk snap log) :
    files.Loads codec (disk.hardState.getD {}) log snap files := by
  have loads := clean.view.loads (clean.records.load clean.contiguous clean.current)
  rwa [Files.settled, if_neg (by decide), trimmed_complete clean.whole] at loads

/-! ### Appending entries -/

/-- The files that calls of `Store` can leave, whether they return or are cut short. -/
inductive Produced : Files → Prop
  | empty : Produced {}
  | saveHardState {files : Files} (content : Content) :
      Produced files → Produced { files with hardState := some content }
  | saveSnapshot {files : Files} (content : Content) :
      Produced files → Produced { files with snapshot := some content }
  | appendEntries {files after : Files} (entries : List RawEntry) : Produced files →
      files.appendLines goLines (entries.map RawEntry.line) = some after → Produced after
  | tornAppend {files after : Files} (entries : List RawEntry) (reached : Nat) : Produced files →
      files.tornAppend goLines (entries.map RawEntry.line) reached = some after → Produced after
  | replaceEntries {files : Files} (snap : Snapshot) (entries : List RawEntry) :
      Produced files → readJSONFile goLines.readSnapshot {} files.snapshot = some snap →
      Produced { files with wal := some (joinLines newline
        (goLines.encode (.base snap.lastIncludedIndex snap.lastIncludedTerm) ::
          entries.map RawEntry.line)) }
  | load {files : Files} (fates : List Fate) : Produced files →
      Produced ((files.load goLines).exec (loadDevice goLines) files fates).medium

theorem sturdy_lines (entries : List RawEntry) :
    ∀ line ∈ entries.map RawEntry.line, goLines.Sturdy line := by
  intro line member
  rcases List.mem_map.mp member with ⟨entry, -, rfl⟩
  exact entry.line_sturdy

theorem Produced.solid (produced : Produced files) : files.Solid goLines := by
  induction produced with
  | empty =>
      intro line member
      cases member
  | saveHardState content _ ih => exact ih
  | saveSnapshot content _ ih => exact ih
  | appendEntries entries _ appended ih => exact ih.append (sturdy_lines entries) appended
  | tornAppend entries reached _ stopped ih => exact ih.torn (sturdy_lines entries) stopped
  | replaceEntries snap entries _ _ _ =>
      apply solid_lines
      intro line member
      rcases List.mem_cons.mp member with rfl | later
      · exact goLines.sturdy_encode _
      · exact sturdy_lines entries line later
  | @load files fates _ ih =>
      have kept : ((files.load goLines).exec (loadDevice goLines) files fates).Meets
          (fun _ medium => True ∧ medium.Solid goLines) (Files.Solid goLines) := by
        apply Does.exec (does_any (files.load goLines))
        · intro op medium _ earlier
          exact earlier.loadOp op
        · intro op reached medium _ earlier
          exact earlier.tornLoadOp op reached
        · exact ih
      generalize (files.load goLines).exec (loadDevice goLines) files fates = outcome at kept ⊢
      cases outcome with
      | done value medium => exact kept.2
      | crashed medium => exact kept

theorem Produced.clean (produced : Produced files) (loads : files.Loads goLines hs log snap after) :
    ∃ disk, Clean goLines after disk snap log ∧ disk.hardState.getD {} = hs := by
  have solid : after.Solid goLines := by
    have left := produced.load []
    rw [loads] at left
    exact left.solid
  rcases loads.view with ⟨disk, rewrite, view, loaded, rfl⟩
  rcases Disk.load_records loaded with ⟨current, saved, kept⟩
  have contiguous : 0 < snap.lastIncludedIndex → Contiguous snap.lastIncludedIndex log := by
    intro positive
    apply Disk.load_contiguous loaded
    intro zero
    rw [current] at zero
    exact absurd zero (Nat.pos_iff_ne_zero.mp positive)
  cases rewrite with
  | true =>
      have positive : 0 < snap.lastIncludedIndex := by
        have above := Disk.load_rewrite loaded
        rwa [current] at above
      have written := view.written (view.image_fits loaded)
      have whole : (splitLines newline (goLines.write (walImage snap.lastIncludedIndex
          snap.lastIncludedTerm log))).2 = [] := by
        rw [splitLines_write]
      exact ⟨_, ⟨written, whole, written.blank solid whole, records_image (contiguous positive),
        current, contiguous⟩, saved⟩
  | false =>
      have whole : (splitLines newline (files.trimmed.wal.getD [])).2 = [] := by
        rw [files.trimmed_lines]
      exact ⟨disk, ⟨view.trimmed, whole, view.trimmed.blank solid whole, kept rfl, current,
        contiguous⟩, saved⟩

section Raw

variable {entries later : List RawEntry}

/-- Entries at consecutive indexes, the first right after `start`. -/
def Follows (start : Nat) (entries : List RawEntry) : Prop :=
  Contiguous start (entries.map RawEntry.text)

/-- The entries of an append whose whole line lies within the first bytes. -/
def Files.arrived (files : Files) (entries : List RawEntry) (reached : Nat) : List RawEntry :=
  match files.appendedLines goLines (entries.map RawEntry.line) with
  | none => []
  | some written =>
      entries.take (wholeLines (reached - 1) written - (written.length - entries.length))

def headRecords (disk : Disk) : List WalRecord :=
  if disk.wal.getD [] = [] then [.base (snapshotBaseLocked disk).1 (snapshotBaseLocked disk).2]
    else []

theorem appendedRecords_head (disk : Disk) (texts : List LogEntry) :
    appendedRecords disk texts = headRecords disk ++ texts.map .entry := by
  unfold appendedRecords headRecords
  split <;> rfl

theorem Clean.appends (clean : Clean goLines files disk snap log) (some : entries ≠ []) :
    files.appendedLines goLines (entries.map RawEntry.line) =
      .some ((headRecords disk).map goLines.encode ++ entries.map RawEntry.line) := by
  have lines : entries.map RawEntry.line ≠ [] := by simpa using some
  simp only [Files.appendedLines, if_neg lines, headRecords, snapshotBaseLocked, clean.blank,
    clean.view.snapshot, Option.map_some]
  split <;> rfl

def arrivedCount (disk : Disk) (entries : List RawEntry) (cut : Nat) : Nat :=
  wholeLines cut ((headRecords disk).map goLines.encode ++ entries.map RawEntry.line) -
    (headRecords disk).length

theorem Clean.arrived (clean : Clean goLines files disk snap log) (entries : List RawEntry)
    (reached : Nat) :
    files.arrived entries reached = entries.take (arrivedCount disk entries (reached - 1)) := by
  by_cases none : entries = []
  · subst none
    simp [Files.arrived, Files.appendedLines]
  · simp only [Files.arrived, clean.appends none, arrivedCount, List.length_append, List.length_map,
      Nat.add_sub_cancel]

def arrivedRecords (disk : Disk) (entries : List RawEntry) (count : Nat) : List WalRecord :=
  (appendedRecords disk (entries.map RawEntry.text)).take count

theorem arrivedRecords_eq (disk : Disk) (entries : List RawEntry) (count : Nat) :
    arrivedRecords disk entries count = (headRecords disk).take count ++
      (entries.take (count - (headRecords disk).length)).map fun entry => .entry entry.text := by
  rw [arrivedRecords, appendedRecords_head, List.take_append, List.map_map, ← List.map_take]
  rfl

theorem arrivedRecords_toEntry (disk : Disk) (entries : List RawEntry) (count : Nat) :
    (arrivedRecords disk entries count).filterMap WalRecord.toEntry =
      (entries.take (count - (headRecords disk).length)).map RawEntry.text := by
  have bases : ((headRecords disk).take count).filterMap WalRecord.toEntry = [] := by
    rw [List.filterMap_eq_nil_iff]
    intro record member
    have listed := List.mem_of_mem_take member
    unfold headRecords at listed
    split at listed
    · rw [List.mem_singleton.mp listed]
      rfl
    · cases listed
  rw [arrivedRecords_eq, List.filterMap_append, bases, List.nil_append, List.filterMap_map]
  exact congrFun (@List.filterMap_eq_map _ _ RawEntry.text) _

theorem arrivedRecords_encode {count : Nat}
    (valid : ∀ entry ∈ entries.take (count - (headRecords disk).length), entry.Valid) :
    ((headRecords disk).map goLines.encode ++ entries.map RawEntry.line).take count =
      (arrivedRecords disk entries count).map goLines.encode := by
  rw [arrivedRecords_eq, List.take_append, List.map_append, List.map_map,
    List.length_map, ← List.map_take, ← List.map_take]
  congr 1
  apply List.map_congr_left
  intro entry member
  exact (RawEntry.line_valid (valid entry member)).1

theorem Clean.arrivedRecords_fits (clean : Clean goLines files disk snap log) {count : Nat}
    (valid : ∀ entry ∈ entries.take (count - (headRecords disk).length), entry.Valid) :
    ∀ record ∈ arrivedRecords disk entries count, goLines.Fits record := by
  intro record member
  rw [arrivedRecords_eq] at member
  rcases List.mem_append.mp member with base | entry
  · have listed := List.mem_of_mem_take base
    unfold headRecords at listed
    split at listed
    · rw [List.mem_singleton.mp listed]
      exact clean.view.base_fits
    · cases listed
  · rcases List.mem_map.mp entry with ⟨raw, taken, rfl⟩
    exact (RawEntry.line_valid (valid raw taken)).2

theorem Clean.rawAppend (clean : Clean goLines files disk snap log)
    (next : Follows (lastIndex snap log) entries) (cut : Nat) {kept : List RawEntry}
    (arrived : kept = entries.take (arrivedCount disk entries cut))
    (valid : ∀ entry ∈ kept, entry.Valid) {written : List Content}
    (whole : written = (headRecords disk).map goLines.encode ++ entries.map RawEntry.line) :
    (files.extended ((joinLines newline written).take cut)).Loads goLines (disk.hardState.getD {})
        (log ++ kept.map RawEntry.text) snap
        (files.extended (joinLines newline (written.take (wholeLines cut written)))) ∧
      ∃ left, Clean goLines
        (files.extended (joinLines newline (written.take (wholeLines cut written))))
        left snap (log ++ kept.map RawEntry.text) ∧ left.hardState = disk.hardState := by
  have sturdy : ∀ line ∈ written, goLines.Sturdy line := by
    intro line member
    rw [whole] at member
    rcases List.mem_append.mp member with base | entry
    · rcases List.mem_map.mp base with ⟨record, -, rfl⟩
      exact goLines.sturdy_encode record
    · exact sturdy_lines entries line entry
  have count : arrivedCount disk entries cut =
      wholeLines cut written - (headRecords disk).length := by
    rw [arrivedCount, whole]
  rw [count] at arrived
  rw [arrived] at valid
  have lines := arrivedRecords_encode valid
  have texts := arrivedRecords_toEntry disk entries (wholeLines cut written)
  have grown := clean.records.torn_append next (fun _ => clean.current) (wholeLines cut written)
  rw [← arrivedRecords, texts, ← arrived] at grown
  rw [← whole] at lines
  have contiguous : 0 < snap.lastIncludedIndex →
      Contiguous snap.lastIncludedIndex (log ++ kept.map RawEntry.text) := by
    intro positive
    have below := clean.contiguous positive
    unfold Follows at next
    rw [below.lastIndex] at next
    rw [contiguous_append, arrived, List.map_take]
    exact ⟨below, next.take _⟩
  rw [← arrived] at texts
  rw [← texts] at grown contiguous ⊢
  rcases clean.grow sturdy lines (clean.arrivedRecords_fits valid) grown contiguous with
    ⟨loads, again⟩
  rw [lines]
  exact ⟨loads, _, again, rfl⟩

/-- What is asked of an append that a crash cuts short, and of one after it: `Load` returns the log
with exactly the entries whose whole line has arrived, cuts the file back to them, and after the
later append returns these and the later ones. -/
def Files.Recovers (files : Files) (hs : HardState) (log : List LogEntry) (snap : Snapshot)
    (entries : List RawEntry) (reached : Nat) (later : List RawEntry) : Prop :=
  ∃ written torn kept recovered final more left,
    files.appendedLines goLines (entries.map RawEntry.line) = some written ∧
    files.tornAppend goLines (entries.map RawEntry.line) reached = some torn ∧
    torn.Loads goLines hs (log ++ kept) snap recovered ∧
    kept.map LogEntry.raw = files.arrived entries reached ∧
    recovered.wal.getD [] =
      files.wal.getD [] ++ joinLines newline (written.take (wholeLines (reached - 1) written)) ∧
    recovered.appendLines goLines (later.map RawEntry.line) = some final ∧
    final.Loads goLines hs (log ++ kept ++ more) snap left ∧ more.map LogEntry.raw = later

theorem raw_texts {kept : List RawEntry} (valid : ∀ entry ∈ kept, entry.Valid) :
    (kept.map RawEntry.text).map LogEntry.raw = kept := by
  rw [List.map_map]
  refine (List.map_congr_left fun entry member => ?_).trans (List.map_id kept)
  exact RawEntry.raw_text (valid entry member)

theorem Clean.tornAppend (clean : Clean goLines files disk snap log)
    (next : Follows (lastIndex snap log) entries) (reached : Nat)
    (valid : ∀ entry ∈ files.arrived entries reached, entry.Valid) :
    ∃ written torn recovered left,
      files.appendedLines goLines (entries.map RawEntry.line) = some written ∧
      files.tornAppend goLines (entries.map RawEntry.line) reached = some torn ∧
      torn.Loads goLines (disk.hardState.getD {})
        (log ++ (files.arrived entries reached).map RawEntry.text) snap recovered ∧
      recovered.wal.getD [] =
        files.wal.getD [] ++ joinLines newline (written.take (wholeLines (reached - 1) written)) ∧
      Clean goLines recovered left snap (log ++ (files.arrived entries reached).map RawEntry.text) ∧
      left.hardState = disk.hardState := by
  have arrived := clean.arrived entries reached
  generalize files.arrived entries reached = kept at arrived valid ⊢
  by_cases none : entries = []
  · subst none
    refine ⟨[], files, files, disk, rfl, ?_, ?_, by simp, ?_, rfl⟩
    · cases reached <;> rfl
    · simpa [arrived] using clean.reload
    · simpa [arrived] using clean
  · have appends := clean.appends none
    have lines : entries.map RawEntry.line ≠ [] := by simpa using none
    generalize whole : (headRecords disk).map goLines.encode ++ entries.map RawEntry.line = written
      at appends
    cases reached with
    | zero =>
        have nothing : kept = [] := by
          rw [arrived, arrivedCount, wholeLines_zero, Nat.zero_sub, List.take_zero]
        refine ⟨written, files, files, disk, appends, rfl, ?_, ?_, ?_, rfl⟩
        · simpa [nothing] using clean.reload
        · simp [wholeLines_zero]
        · simpa [nothing] using clean
    | succ reached =>
        rcases clean.rawAppend next reached arrived valid whole.symm with
          ⟨loads, left, again, saved⟩
        refine ⟨written, _, _, left, appends, ?_, loads, rfl, again, saved⟩
        simp only [Files.tornAppend, if_neg lines, appends, Option.map_some]

theorem Clean.appendEntries (clean : Clean goLines files disk snap log)
    (next : Follows (lastIndex snap log) entries) (valid : ∀ entry ∈ entries, entry.Valid) :
    ∃ final left, files.appendLines goLines (entries.map RawEntry.line) = some final ∧
      final.Loads goLines (disk.hardState.getD {}) (log ++ entries.map RawEntry.text) snap
        left := by
  by_cases none : entries = []
  · subst none
    refine ⟨files, files, rfl, ?_⟩
    simpa using clean.reload
  · have appends := clean.appends none
    have lines : entries.map RawEntry.line ≠ [] := by simpa using none
    generalize whole : (headRecords disk).map goLines.encode ++ entries.map RawEntry.line = written
      at appends
    have all : entries =
        entries.take (arrivedCount disk entries (joinLines newline written).length) := by
      rw [arrivedCount, whole, wholeLines_all, ← whole, List.length_append, List.length_map,
        List.length_map, Nat.add_sub_cancel_left, List.take_length]
    rcases clean.rawAppend next (joinLines newline written).length all valid whole.symm with
      ⟨loads, -⟩
    rw [List.take_length] at loads
    refine ⟨_, _, ?_, loads⟩
    simp only [Files.appendLines, if_neg lines, appends, Option.map_some]

/-- An append that a crash has cut short is recovered up to its last whole line, and the log can be
continued from there, just when the strings of the entries are UTF-8. -/
theorem Files.tornAppend_recovers (produced : Produced files)
    (loads : files.Loads goLines hs log snap after) (next : Follows (lastIndex snap log) entries)
    (reached : Nat)
    (continues : Follows (lastIndex snap (log ++ (after.arrived entries reached).map RawEntry.text))
      later) :
    after.Recovers hs log snap entries reached later ↔
      (∀ entry ∈ after.arrived entries reached, entry.Valid) ∧ ∀ entry ∈ later, entry.Valid := by
  constructor
  · rintro ⟨written, torn, kept, recovered, final, more, left, -, -, -, arrived, -, -, -, appended⟩
    -- What `Load` returns are texts.
    have texts (entries : List LogEntry) : ∀ entry ∈ entries.map LogEntry.raw, entry.Valid := by
      intro entry member
      rcases List.mem_map.mp member with ⟨text, -, rfl⟩
      exact text.raw_valid
    rw [← arrived, ← appended]
    exact ⟨texts kept, texts more⟩
  · rintro ⟨valid, also⟩
    rcases produced.clean loads with ⟨disk, clean, rfl⟩
    rcases clean.tornAppend next reached valid with
      ⟨written, torn, recovered, left, appends, stopped, reloads, cut, again, saved⟩
    rcases again.appendEntries continues also with ⟨final, end', appended, final'⟩
    rw [saved] at final'
    exact ⟨written, torn, _, recovered, final, _, end', appends, stopped, reloads, raw_texts valid,
      cut, appended, final', raw_texts also⟩

end Raw

def noopEntry (index : UInt64) : RawEntry := ⟨index, 1, { op := bytesOf "noop" }⟩

theorem empty_loads : Files.Loads goLines {} {} [] {} {} := by
  unfold Files.Loads
  decide +kernel

/-- The second of two lines is cut, and another entry takes its place. -/
theorem Files.tornAppend_recovers_cut :
    Files.arrived {} [noopEntry 1, noopEntry 2] 200 = [noopEntry 1] ∧
      Files.Recovers {} {} [] {} [noopEntry 1, noopEntry 2] 200 [noopEntry 2] := by
  have arrived : Files.arrived {} [noopEntry 1, noopEntry 2] 200 = [noopEntry 1] := by
    decide +kernel
  refine ⟨arrived, (Files.tornAppend_recovers .empty empty_loads ?_ 200 ?_).mpr ?_⟩
  · simp [Follows, lastIndex, contiguous_cons, RawEntry.text, noopEntry]
  · rw [arrived]
    simp [Follows, lastIndex, contiguous_cons, RawEntry.text, noopEntry]
  · rw [arrived]
    decide +kernel

/-- A key that is no UTF-8. -/
def strayEntry : RawEntry := ⟨1, 1, { op := bytesOf "put", key := [255] }⟩

def strayFiles : Files := (Files.tornAppend goLines {} [strayEntry.line] 200).getD {}

theorem strayFiles_refused : (strayFiles.load goLines).exec (loadDevice goLines) strayFiles [] =
    .done (.error .line) strayFiles := by
  decide +kernel

/-- The whole line of an entry reaches the file, and `Load` refuses it. -/
theorem Files.append_refused : Produced {} ∧ Files.Loads goLines {} {} [] {} {} ∧
    Follows (lastIndex {} []) [strayEntry] ∧ Files.arrived {} [strayEntry] 200 = [strayEntry] ∧
    Files.tornAppend goLines {} [strayEntry.line] 200 = some strayFiles ∧
    (strayFiles.load goLines).exec (loadDevice goLines) strayFiles
    [] = .done (.error .line) strayFiles ∧ ¬ Files.Recovers {} {} [] {} [strayEntry] 200 [] := by
  have torn : Files.tornAppend goLines {} [strayEntry.line] 200 = some strayFiles := by
    decide +kernel
  refine ⟨.empty, empty_loads, ?_, by decide +kernel, torn, strayFiles_refused, ?_⟩
  · simp [Follows, lastIndex, contiguous_cons, RawEntry.text, strayEntry]
  · rintro ⟨written, other, kept, recovered, final, more, left, -, stopped, loads, -⟩
    cases torn.symm.trans stopped
    cases strayFiles_refused.symm.trans loads

end GoRaftKV.Storage
