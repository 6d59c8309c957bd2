import GoRaftKV.Storage.Logs
import GoRaftKV.Storage.Store

namespace GoRaftKV.Storage

variable {wal : Option (List WalRecord)} {snapshot : Snapshot} {log : List LogEntry} {disk : Disk}

theorem readRecords_append (data : WalData) (front back : List WalRecord) :
    readRecords data (front ++ back) =
      match readRecords data front with
      | .error error => .error error
      | .ok data => readRecords data back := by
  induction front generalizing data with
  | nil => rfl
  | cons record records ih =>
      simp only [List.cons_append, readRecords]
      cases readRecord data record with
      | error error => rfl
      | ok data => exact ih data

theorem readRecords_entries {data : WalData} {start : Nat} {entries : List LogEntry}
    (contiguous : Contiguous start entries)
    (anchored : ∀ previous, data.entries.getLast? = some previous → previous.index = start)
    (based : data.hasBase = true → data.baseIndex ≤ start ∧
      (data.entries = [] → data.baseIndex = start)) :
    readRecords data (entries.map .entry) =
      .ok { data with entries := data.entries ++ entries } := by
  induction entries generalizing data start with
  | nil => simp [readRecords]
  | cons head tail ih =>
      obtain ⟨first, rest⟩ := contiguous_cons.mp contiguous
      have accepted : readRecord data (.entry head) =
          .ok { data with entries := data.entries ++ [head] } := by
        have positive : head.index ≠ 0 := by omega
        have afterBase : ¬ (data.hasBase = true ∧ head.index ≤ data.baseIndex) := by
          rintro ⟨hasBase, low⟩
          have bound := (based hasBase).1
          omega
        simp only [readRecord, if_neg positive, if_neg afterBase]
        cases last : data.entries.getLast? with
        | none =>
            have empty := List.getLast?_eq_none_iff.mp last
            have next : ¬ (data.hasBase = true ∧ head.index ≠ data.baseIndex + 1) := by
              rintro ⟨hasBase, differs⟩
              have base := (based hasBase).2 empty
              omega
            simp only [if_neg next]
        | some previous =>
            have next : ¬ head.index ≠ previous.index + 1 := by
              have index := anchored previous last
              omega
            simp only [if_neg next]
      simp only [List.map_cons, readRecords, accepted]
      rw [ih rest]
      · simp
      · intro previous last
        simp only [List.getLast?_append, List.getLast?_singleton, Option.some_or,
          Option.some.injEq] at last
        rw [← last, first]
      · intro hasBase
        exact ⟨(based hasBase).1.trans (Nat.le_succ start), by simp⟩

theorem readWAL_image {baseIndex baseTerm : Nat} {entries : List LogEntry}
    (contiguous : Contiguous baseIndex entries) :
    readWAL (some (walImage baseIndex baseTerm entries)) =
      .ok { hasBase := true, baseIndex := baseIndex, baseTerm := baseTerm,
            entries := entries } := by
  have based : readRecords { hasBase := true, baseIndex := baseIndex, baseTerm := baseTerm }
      (entries.map .entry) = .ok { hasBase := true, baseIndex := baseIndex, baseTerm := baseTerm
                                   entries := [] ++ entries } :=
    readRecords_entries contiguous (by simp) (by simp)
  simpa [readWAL, walImage, readRecords, readRecord] using based

theorem readRecord_entry {data next : WalData} {entry : LogEntry}
    (step : readRecord data (.entry entry) = .ok next) :
    next = { data with entries := data.entries ++ [entry] } := by
  simp only [readRecord] at step
  repeat' split at step
  all_goals simp only [reduceCtorEq, Except.ok.injEq] at step
  all_goals exact step.symm

theorem readRecords_blank {data result : WalData} {records : List WalRecord}
    (read : readRecords data records = .ok result) :
    (result.hasBase = false ∧ result.entries = [] → records = []) ∧
      (data.hasBase = true → result.hasBase = true) ∧
      (result.entries = [] → data.entries = []) := by
  induction records generalizing data with
  | nil =>
      simp only [readRecords, Except.ok.injEq] at read
      subst read
      exact ⟨fun _ => rfl, id, id⟩
  | cons record records ih =>
      simp only [readRecords] at read
      cases step : readRecord data record with
      | error error =>
          rw [step] at read
          cases read
      | ok next =>
          rw [step] at read
          obtain ⟨-, keepsBase, keepsEntries⟩ := ih read
          cases record with
          | base index term =>
              simp only [readRecord] at step
              split at step
              · cases step
              · simp only [Except.ok.injEq] at step
                subst step
                have based := keepsBase rfl
                exact ⟨fun blank => absurd (based.symm.trans blank.1) (by simp), fun _ => based,
                  keepsEntries⟩
          | entry entry =>
              obtain rfl := readRecord_entry step
              have nonempty : result.entries ≠ [] := by
                intro empty
                simpa using keepsEntries empty
              exact ⟨fun blank => absurd blank.2 nonempty, keepsBase,
                fun empty => absurd empty nonempty⟩

/-- The entries read so far follow one another, from the base record when there is one. -/
def WalData.Strung (data : WalData) : Prop :=
  ∃ start, Contiguous start data.entries ∧ (data.hasBase = true → start = data.baseIndex)

theorem readRecord_strung {data next : WalData} {record : WalRecord}
    (read : readRecord data record = .ok next) (strung : data.Strung) : next.Strung := by
  rcases strung with ⟨start, contiguous, based⟩
  cases record with
  | base index term =>
      simp only [readRecord] at read
      split at read
      · cases read
      · rename_i first
        push Not at first
        cases read
        refine ⟨index, ?_, fun _ => rfl⟩
        simp only [first.2]
        exact contiguous_nil _
  | entry entry =>
      have stored := readRecord_entry read
      simp only [readRecord] at read
      split at read
      · cases read
      rename_i positive
      split at read
      · cases read
      subst stored
      cases last : data.entries.getLast? with
      | none =>
          have empty := List.getLast?_eq_none_iff.mp last
          refine ⟨entry.index - 1, ?_, fun hasBase => ?_⟩
          · simp only [empty, List.nil_append, contiguous_cons, contiguous_nil, and_true]
            omega
          · rw [last] at read
            simp only at read
            split at read
            · cases read
            · rename_i next
              change entry.index - 1 = data.baseIndex
              have index : entry.index = data.baseIndex + 1 := by
                by_contra differs
                exact next ⟨hasBase, differs⟩
              omega
      | some previous =>
          rw [last] at read
          simp only at read
          split at read
          · cases read
          · rename_i next
            refine ⟨start, ?_, based⟩
            rw [contiguous_append]
            refine ⟨contiguous, ?_⟩
            simp only [contiguous_cons, contiguous_nil, and_true]
            rw [not_not.mp next, contiguous.getLast last]

theorem readRecords_strung {data result : WalData} {records : List WalRecord}
    (read : readRecords data records = .ok result) (strung : data.Strung) : result.Strung := by
  induction records generalizing data with
  | nil =>
      cases read
      exact strung
  | cons record records ih =>
      simp only [readRecords] at read
      cases step : readRecord data record with
      | error error =>
          rw [step] at read
          cases read
      | ok next =>
          rw [step] at read
          exact ih read (readRecord_strung step strung)

theorem readWAL_strung {data : WalData} (read : readWAL wal = .ok data) : data.Strung :=
  readRecords_strung read ⟨0, contiguous_nil _, fun hasBase => by cases hasBase⟩

def WalRecord.toEntry : WalRecord → Option LogEntry
  | .base _ _ => none
  | .entry stored => some stored

theorem readRecords_entry {data result : WalData} {records : List WalRecord}
    (read : readRecords data records = .ok result) :
    result.entries = data.entries ++ records.filterMap WalRecord.toEntry := by
  induction records generalizing data with
  | nil =>
      cases read
      simp
  | cons record records ih =>
      simp only [readRecords] at read
      cases step : readRecord data record with
      | error error =>
          rw [step] at read
          cases read
      | ok next =>
          rw [step] at read
          rw [ih read]
          cases record with
          | base index term =>
              simp only [readRecord] at step
              split at step
              · cases step
              · cases step
                rfl
          | entry entry =>
              rw [readRecord_entry step]
              simp [WalRecord.toEntry]

theorem readRecord_base {data next : WalData} {record : WalRecord}
    (read : readRecord data record = .ok next) (hasBase : data.hasBase = true) :
    next.hasBase = true ∧ next.baseIndex = data.baseIndex ∧ next.baseTerm = data.baseTerm := by
  cases record with
  | base index term =>
      simp only [readRecord, hasBase, true_or, if_true] at read
      cases read
  | entry entry =>
      rw [readRecord_entry read]
      exact ⟨hasBase, rfl, rfl⟩

theorem readRecords_base {data result : WalData} {records : List WalRecord}
    (read : readRecords data records = .ok result) (hasBase : data.hasBase = true) :
    result.hasBase = true ∧ result.baseIndex = data.baseIndex ∧
      result.baseTerm = data.baseTerm := by
  induction records generalizing data with
  | nil =>
      cases read
      exact ⟨hasBase, rfl, rfl⟩
  | cons record records ih =>
      simp only [readRecords] at read
      cases step : readRecord data record with
      | error error =>
          rw [step] at read
          cases read
      | ok next =>
          rw [step] at read
          rcases readRecord_base step hasBase with ⟨kept, index, term⟩
          rcases ih read kept with ⟨final, finalIndex, finalTerm⟩
          exact ⟨final, finalIndex.trans index, finalTerm.trans term⟩

theorem readRecords_based {data result : WalData} {records : List WalRecord} {index term : Nat}
    (read : readRecords data records = .ok result) (present : .base index term ∈ records) :
    result.hasBase = true ∧ result.baseIndex = index ∧ result.baseTerm = term := by
  induction records generalizing data with
  | nil => cases present
  | cons record records ih =>
      simp only [readRecords] at read
      cases step : readRecord data record with
      | error error =>
          rw [step] at read
          cases read
      | ok next =>
          rw [step] at read
          rcases List.mem_cons.mp present with rfl | later
          · simp only [readRecord] at step
            split at step
            · cases step
            · cases step
              exact readRecords_base read rfl
          · exact ih read later

/-- The WAL holds exactly `log`, on top of the boundary of `snapshot`. -/
def Records (wal : Option (List WalRecord)) (snapshot : Snapshot) (log : List LogEntry) : Prop :=
  ∃ data, readWAL wal = .ok data ∧ data.entries = log ∧
    (data.hasBase = true → data.baseIndex = snapshot.lastIncludedIndex ∧
      (snapshot.lastIncludedIndex = 0 ∨ data.baseTerm = snapshot.lastIncludedTerm)) ∧
    (data.hasBase = false → snapshot.lastIncludedIndex = 0 ∨ wal.getD [] = [])

theorem records_image (contiguous : Contiguous snapshot.lastIncludedIndex log) :
    Records (some (walImage snapshot.lastIncludedIndex snapshot.lastIncludedTerm log)) snapshot
      log :=
  ⟨_, readWAL_image contiguous, rfl, fun _ => ⟨rfl, Or.inr rfl⟩, by simp⟩

theorem records_empty (empty : wal.getD [] = []) : Records wal snapshot [] := by
  refine ⟨{}, ?_, rfl, by simp, fun _ => Or.inr empty⟩
  rw [readWAL, empty]
  rfl

theorem Records.empty (records : Records wal snapshot log) (blank : wal.getD [] = []) :
    log = [] := by
  obtain ⟨data, read, rfl, -, -⟩ := records
  rw [readWAL, blank] at read
  simp only [readRecords, Except.ok.injEq] at read
  rw [← read]

theorem Records.extend (records : Records wal snapshot log) {entries : List LogEntry}
    (next : Contiguous (lastIndex snapshot log) entries) (written : wal.getD [] ≠ []) :
    Records (some (wal.getD [] ++ entries.map .entry)) snapshot (log ++ entries) := by
  obtain ⟨data, read, rfl, based, blank⟩ := records
  have more : readRecords data (entries.map .entry) =
      .ok { data with entries := data.entries ++ entries } := by
    apply readRecords_entries next
    · intro previous last
      simp only [lastIndex, last]
    · intro hasBase
      rcases readWAL_strung read with ⟨start, contiguous, started⟩
      rw [started hasBase, (based hasBase).1] at contiguous
      rw [contiguous.lastIndex, (based hasBase).1]
      exact ⟨by omega, fun empty => by rw [empty]; rfl⟩
  refine ⟨{ data with entries := data.entries ++ entries }, ?_, rfl, based, ?_⟩
  · have split := readRecords_append {} (wal.getD []) (entries.map .entry)
    rw [readWAL] at read
    rw [read] at split
    exact split.trans more
  · intro hasBase
    rcases blank hasBase with zero | none
    · exact Or.inl zero
    · exact absurd none written

@[simp] theorem map_entry_toEntry (entries : List LogEntry) :
    (entries.map WalRecord.entry).filterMap WalRecord.toEntry = entries := by
  induction entries with
  | nil => rfl
  | cons entry entries ih => simp [WalRecord.toEntry, ih]

@[simp] theorem walImage_toEntry (baseIndex baseTerm : Nat) (entries : List LogEntry) :
    (walImage baseIndex baseTerm entries).filterMap WalRecord.toEntry = entries :=
  map_entry_toEntry entries

@[simp] theorem appendedRecords_toEntry (entries : List LogEntry) :
    (appendedRecords disk entries).filterMap WalRecord.toEntry = entries := by
  unfold appendedRecords
  split
  · exact walImage_toEntry _ _ entries
  · exact map_entry_toEntry entries

theorem appendedRecords_take (disk : Disk) (entries : List LogEntry) (reached : Nat) :
    ∃ count, ((appendedRecords disk entries).take reached).filterMap WalRecord.toEntry =
      entries.take count := by
  unfold appendedRecords
  split
  · cases reached with
    | zero => exact ⟨0, rfl⟩
    | succ reached =>
        refine ⟨reached, ?_⟩
        simp only [walImage, List.take_succ_cons, ← List.map_take]
        exact walImage_toEntry _ _ (entries.take reached)
  · refine ⟨reached, ?_⟩
    rw [← List.map_take]
    exact map_entry_toEntry _

theorem Records.torn_append (records : Records disk.wal snapshot log) {entries : List LogEntry}
    (next : Contiguous (lastIndex snapshot log) entries)
    (base : disk.wal.getD [] = [] → disk.snapshot.getD {} = snapshot) (reached : Nat) :
    Records (some (disk.wal.getD [] ++ (appendedRecords disk entries).take reached)) snapshot
      (log ++ ((appendedRecords disk entries).take reached).filterMap WalRecord.toEntry) := by
  by_cases blank : disk.wal.getD [] = []
  · have empty := records.empty blank
    subst empty
    have image : appendedRecords disk entries =
        walImage snapshot.lastIncludedIndex snapshot.lastIncludedTerm entries := by
      simp only [appendedRecords, if_pos blank, snapshotBaseLocked, base blank]
    rw [image, blank]
    cases reached with
    | zero => exact records_empty rfl
    | succ reached =>
        have shorter : (walImage snapshot.lastIncludedIndex snapshot.lastIncludedTerm entries).take
            (reached + 1) = walImage snapshot.lastIncludedIndex snapshot.lastIncludedTerm
              (entries.take reached) := by
          simp [walImage, List.map_take]
        rw [shorter, walImage_toEntry]
        exact records_image (next.take reached)
  · have plain : (appendedRecords disk entries).take reached =
        (entries.take reached).map WalRecord.entry := by
      simp only [appendedRecords, if_neg blank, List.map_take]
    rw [plain, map_entry_toEntry]
    exact records.extend (next.take reached) blank

theorem Records.append (records : Records disk.wal snapshot log) {entries : List LogEntry}
    (next : Contiguous (lastIndex snapshot log) entries)
    (base : disk.wal.getD [] = [] → disk.snapshot.getD {} = snapshot) :
    Records (some (disk.wal.getD [] ++ appendedRecords disk entries)) snapshot
      (log ++ entries) := by
  have all := records.torn_append next base (appendedRecords disk entries).length
  rwa [List.take_length, appendedRecords_toEntry] at all

theorem Disk.load_cases {loaded : Loaded} (loads : disk.load = .ok loaded) :
    ∃ data, readWAL disk.wal = .ok data ∧
      ((0 < (disk.snapshot.getD {}).lastIncludedIndex ∧
        loaded = ⟨disk.hardState.getD {}, (reconcileWALWithSnapshot data (disk.snapshot.getD {})).1,
          disk.snapshot.getD {}, (reconcileWALWithSnapshot data (disk.snapshot.getD {})).2⟩) ∨
      ((disk.snapshot.getD {}).lastIncludedIndex = 0 ∧ (data.hasBase = true → data.baseIndex = 0) ∧
        loaded = ⟨disk.hardState.getD {}, data.entries, disk.snapshot.getD {}, false⟩)) := by
  unfold Disk.load at loads
  cases read : readWAL disk.wal with
  | error error =>
      rw [read] at loads
      cases loads
  | ok data =>
      rw [read] at loads
      simp only at loads
      refine ⟨data, rfl, ?_⟩
      split at loads
      · rename_i positive
        exact Or.inl ⟨positive, (Except.ok.inj loads).symm⟩
      · rename_i zero
        split at loads
        · cases loads
        · rename_i noBase
          refine Or.inr ⟨Nat.eq_zero_of_not_pos zero, fun hasBase => ?_, (Except.ok.inj loads).symm⟩
          exact Nat.eq_zero_of_not_pos fun positive => noBase ⟨hasBase, positive⟩

theorem Disk.load_recorded {loaded : Loaded} (loads : disk.load = .ok loaded) {entry : LogEntry}
    (member : entry ∈ loaded.entries) : .entry entry ∈ disk.wal.getD [] := by
  rcases Disk.load_cases loads with ⟨data, read, kind⟩
  have listed : entry ∈ data.entries := by
    rcases kind with ⟨-, rfl⟩ | ⟨-, -, rfl⟩
    · simp only [reconcileWALWithSnapshot] at member
      split at member
      · exact (List.mem_filter.mp member).1
      split at member
      · exact (List.mem_filter.mp member).1
      split at member <;> cases member
    · exact member
  rw [readRecords_entry read, List.nil_append] at listed
  rcases List.mem_filterMap.mp listed with ⟨stored, present, same⟩
  cases stored with
  | base index term => cases same
  | entry other =>
      cases same
      exact present

theorem Records.load (records : Records disk.wal snapshot log)
    (contiguous : 0 < snapshot.lastIncludedIndex → Contiguous snapshot.lastIncludedIndex log)
    (current : disk.snapshot.getD {} = snapshot) :
    disk.load = .ok ⟨disk.hardState.getD {}, log, snapshot, false⟩ := by
  obtain ⟨data, read, rfl, based, blank⟩ := records
  simp only [Disk.load, read, current]
  rcases Nat.eq_zero_or_pos snapshot.lastIncludedIndex with zero | positive
  · have noBase : ¬ (data.hasBase = true ∧ 0 < data.baseIndex) := by
      rintro ⟨hasBase, positive⟩
      have base := (based hasBase).1
      omega
    simp only [zero, Nat.lt_irrefl, if_false, if_neg noBase]
  · have keep : entriesAfter data.entries snapshot.lastIncludedIndex = data.entries := by
      rw [entriesAfter, (contiguous positive).filter_lt le_rfl, Nat.sub_self, List.drop_zero]
    simp only [if_pos positive]
    cases hasBase : data.hasBase with
    | true =>
        obtain ⟨index, term⟩ := based hasBase
        have term := term.resolve_left (by omega)
        simp [reconcileWALWithSnapshot, hasBase, index, term, keep]
    | false =>
        have none := (blank hasBase).resolve_left (by omega)
        have empty : data.entries = [] := by
          rw [readWAL, none] at read
          simp only [readRecords, Except.ok.injEq] at read
          rw [← read]
        have boundary : hasSnapshotBoundaryEntry [] snapshot = false := by
          have nonzero : ¬ snapshot.lastIncludedIndex = 0 := by omega
          simp [hasSnapshotBoundaryEntry, nonzero]
        simp [reconcileWALWithSnapshot, hasBase, empty, boundary]

theorem Disk.load_image (contiguous : Contiguous snapshot.lastIncludedIndex log)
    (current : disk.snapshot.getD {} = snapshot) :
    ({ disk with
      wal := some (walImage snapshot.lastIncludedIndex snapshot.lastIncludedTerm log) } :
        Disk).load =
      .ok ⟨disk.hardState.getD {}, log, snapshot, false⟩ :=
  Records.load (records_image contiguous) (fun _ => contiguous) current

/-- The entries that survive a snapshot saved on top of them. -/
def survivors (log : List LogEntry) (newer : Snapshot) : List LogEntry :=
  if (log.find? fun entry => entry.index = newer.lastIncludedIndex).map LogEntry.term =
      some newer.lastIncludedTerm then
    log.filter fun entry => newer.lastIncludedIndex < entry.index
  else []

theorem survivors_after (log : List LogEntry) (newer : Snapshot) :
    ∀ entry ∈ survivors log newer, newer.lastIncludedIndex < entry.index := by
  unfold survivors
  split
  · intro entry member
    simpa using (List.mem_filter.mp member).2
  · intro entry member
    cases member

theorem lastIndex_newer {newer : Snapshot} {entries : List LogEntry}
    (after : ∀ entry ∈ entries, newer.lastIncludedIndex < entry.index) :
    newer.lastIncludedIndex ≤ lastIndex newer entries := by
  unfold lastIndex
  split
  · exact le_rfl
  · rename_i entry last
    exact (after entry (List.mem_of_getLast? last)).le

theorem Records.load_newer (records : Records disk.wal snapshot log) {newer : Snapshot}
    (current : disk.snapshot.getD {} = newer)
    (later : snapshot.lastIncludedIndex < newer.lastIncludedIndex) :
    ∃ rewrite, disk.load = .ok ⟨disk.hardState.getD {}, survivors log newer, newer, rewrite⟩ := by
  obtain ⟨data, read, rfl, based, blank⟩ := records
  have positive : 0 < newer.lastIncludedIndex := by omega
  have nonzero : ¬ newer.lastIncludedIndex = 0 := by omega
  have otherBase : ¬ (data.hasBase = true ∧ data.baseIndex = newer.lastIncludedIndex ∧
      data.baseTerm = newer.lastIncludedTerm) := by
    rintro ⟨hasBase, index, -⟩
    have base := (based hasBase).1
    omega
  simp only [Disk.load, read, current, if_pos positive, reconcileWALWithSnapshot, if_neg otherBase]
  by_cases boundary : hasSnapshotBoundaryEntry data.entries newer = true
  · refine ⟨true, ?_⟩
    have found : (data.entries.find? fun entry => entry.index = newer.lastIncludedIndex).map
        LogEntry.term = some newer.lastIncludedTerm := by
      unfold hasSnapshotBoundaryEntry at boundary
      cases search : data.entries.find? fun entry => entry.index = newer.lastIncludedIndex with
      | none =>
          rw [search] at boundary
          simp [nonzero] at boundary
      | some entry =>
          rw [search] at boundary
          simpa using boundary
    simp only [if_pos boundary, survivors, if_pos found, entriesAfter]
  · have missing : ¬ (data.entries.find? fun entry => entry.index = newer.lastIncludedIndex).map
        LogEntry.term = some newer.lastIncludedTerm := by
      intro found
      apply boundary
      unfold hasSnapshotBoundaryEntry
      cases search : data.entries.find? fun entry => entry.index = newer.lastIncludedIndex with
      | none =>
          rw [search] at found
          cases found
      | some entry =>
          rw [search] at found
          simpa using found
    simp only [if_neg boundary, survivors, if_neg missing]
    split
    · exact ⟨false, rfl⟩
    · exact ⟨true, rfl⟩

/-- Whatever the files held, after `Load` and its rewrite the WAL is in step with the result. -/
theorem Disk.load_records {loaded : Loaded} (loads : disk.load = .ok loaded) :
    disk.snapshot.getD {} = loaded.snapshot ∧ disk.hardState.getD {} = loaded.hardState ∧
      (loaded.rewrite = false → Records disk.wal loaded.snapshot loaded.entries) := by
  rcases Disk.load_cases loads with ⟨data, read, ⟨positive, rfl⟩ | ⟨zero, bottom, rfl⟩⟩
  · refine ⟨rfl, rfl, ?_⟩
    intro kept
    simp only [reconcileWALWithSnapshot] at kept ⊢
    split at kept
    · rename_i matching
      simp only [if_pos matching]
      have whole : entriesAfter data.entries (disk.snapshot.getD {}).lastIncludedIndex =
          data.entries := by
        have lengths :
            (entriesAfter data.entries (disk.snapshot.getD {}).lastIncludedIndex).length =
            data.entries.length := by
          simpa using kept
        exact List.filter_sublist.eq_of_length lengths
      exact ⟨data, read, whole.symm, fun _ => ⟨matching.2.1, Or.inr matching.2.2⟩,
        fun noBase => absurd (noBase.symm.trans matching.1) (by simp)⟩
    · rename_i differs
      split at kept
      · cases kept
      · rename_i noBoundary
        split at kept
        · rename_i none
          simp only [if_neg differs, if_neg noBoundary, if_pos none]
          have records : disk.wal.getD [] = [] := (readRecords_blank read).1 ⟨none.2, none.1⟩
          exact records_empty records
        · cases kept
  · refine ⟨rfl, rfl, fun _ => ⟨data, read, rfl, ?_, fun _ => Or.inl zero⟩⟩
    intro hasBase
    exact ⟨(bottom hasBase).trans zero.symm, Or.inl zero⟩

/-- A WAL that is not empty starts with a base record. -/
def Disk.Based (disk : Disk) : Prop :=
  ∀ record, (disk.wal.getD []).head? = some record → ∃ index term, record = .base index term

theorem Disk.Based.image {baseIndex baseTerm : Nat} {entries : List LogEntry} :
    Disk.Based { disk with wal := some (walImage baseIndex baseTerm entries) } := by
  intro record first
  cases first
  exact ⟨_, _, rfl⟩

theorem Disk.Based.appended (based : disk.Based) (entries : List LogEntry) (count : Nat) :
    Disk.Based { disk with
      wal := some (disk.wal.getD [] ++ (appendedRecords disk entries).take count) } := by
  intro record first
  simp only [Option.getD_some] at first
  cases written : disk.wal.getD [] with
  | nil =>
      rw [written, List.nil_append, appendedRecords, if_pos written] at first
      cases count with
      | zero => cases first
      | succ count =>
          cases first
          exact ⟨_, _, rfl⟩
  | cons head rest =>
      rw [written] at first
      apply based
      rw [written]
      exact first

theorem Disk.Based.complete (based : disk.Based) (op : StoreOp) :
    (Disk.complete op disk).Based := by
  cases op with
  | saveHardState hs => exact based
  | appendEntries entries =>
      simp only [Disk.complete]
      split
      · exact based
      · have whole := based.appended entries (appendedRecords disk entries).length
        rwa [List.take_length] at whole
  | replaceEntries entries => exact .image
  | saveSnapshot snapshot => exact based
  | rewriteWAL baseIndex baseTerm entries => exact .image

theorem Disk.Based.torn (based : disk.Based) (op : StoreOp) (reached : Nat) :
    (Disk.torn op reached disk).Based := by
  cases reached with
  | zero =>
      have same : Disk.torn op 0 disk = disk := store.torn_zero op disk
      rw [same]
      exact based
  | succ reached =>
      cases op with
      | appendEntries entries =>
          simp only [Disk.torn]
          split
          · exact based
          · exact based.appended entries reached
      | saveHardState hs => exact based
      | replaceEntries entries => exact .image
      | saveSnapshot snapshot => exact based
      | rewriteWAL baseIndex baseTerm entries => exact .image

/-- The WAL starts with a base record, or with entry 1, when no snapshot tells where it starts. -/
def Disk.Anchored (disk : Disk) : Prop :=
  (disk.snapshot.getD {}).lastIncludedIndex = 0 →
    ∀ entry, (disk.wal.getD []).head? = some (.entry entry) → entry.index = 1

theorem WalData.Strung.after {data : WalData} (strung : data.Strung) {index : Nat}
    (boundary : (data.hasBase = true ∧ data.baseIndex = index) ∨
      ∃ entry, (data.entries.find? fun entry => entry.index = index) = some entry) :
    Contiguous index (entriesAfter data.entries index) := by
  rcases strung with ⟨start, contiguous, based⟩
  have low : start ≤ index := by
    rcases boundary with ⟨hasBase, same⟩ | ⟨entry, found⟩
    · rw [based hasBase, same]
    · rw [contiguous.find] at found
      split at found
      · rename_i after
        exact after.le
      · cases found
  have rest := contiguous.drop (index - start)
  rw [Nat.add_sub_cancel' low] at rest
  rw [entriesAfter, contiguous.filter_lt low]
  exact rest

theorem hasSnapshotBoundaryEntry_find {entries : List LogEntry}
    (positive : 0 < snapshot.lastIncludedIndex)
    (boundary : hasSnapshotBoundaryEntry entries snapshot = true) :
    ∃ entry, (entries.find? fun entry => entry.index = snapshot.lastIncludedIndex) =
      some entry := by
  unfold hasSnapshotBoundaryEntry at boundary
  split at boundary
  · rename_i entry found
    exact ⟨entry, found⟩
  · simp only [decide_eq_true_eq] at boundary
    omega

/-- `Load` returns a log that continues the snapshot. -/
theorem Disk.load_contiguous {loaded : Loaded} (loads : disk.load = .ok loaded)
    (anchored : disk.Anchored) : Contiguous loaded.snapshot.lastIncludedIndex loaded.entries := by
  rcases Disk.load_cases loads with ⟨data, read, ⟨positive, rfl⟩ | ⟨zero, bottom, rfl⟩⟩
  · have strung := readWAL_strung read
    simp only [reconcileWALWithSnapshot]
    split
    · rename_i matching
      exact strung.after (Or.inl ⟨matching.1, matching.2.1⟩)
    split
    · rename_i boundary
      exact strung.after (Or.inr (hasSnapshotBoundaryEntry_find positive boundary))
    split <;> exact contiguous_nil _
  · rcases readWAL_strung read with ⟨start, contiguous, based⟩
    rw [zero]
    cases hasBase : data.hasBase with
    | true =>
        rw [based hasBase, bottom hasBase] at contiguous
        exact contiguous
    | false =>
        rw [Storage.readWAL] at read
        cases written : disk.wal.getD [] with
        | nil =>
            rw [written] at read
            cases read
            exact contiguous_nil _
        | cons first rest =>
            rw [written] at read
            cases first with
            | base baseIndex baseTerm =>
                have present := (readRecords_based read List.mem_cons_self).1
                cases hasBase.symm.trans present
            | entry entry =>
                have one := anchored zero entry (by rw [written]; rfl)
                have listed := readRecords_entry read
                simp only [List.nil_append, List.filterMap_cons, WalRecord.toEntry] at listed
                rw [listed, contiguous_cons] at contiguous
                have origin : start = 0 := by omega
                rw [listed, contiguous_cons, ← origin]
                exact contiguous

theorem Disk.Based.load {loaded : Loaded} (based : disk.Based) (loads : disk.load = .ok loaded) :
    Contiguous loaded.snapshot.lastIncludedIndex loaded.entries := by
  apply Disk.load_contiguous loads
  intro _ entry first
  rcases based _ first with ⟨index, term, same⟩
  cases same

end GoRaftKV.Storage
