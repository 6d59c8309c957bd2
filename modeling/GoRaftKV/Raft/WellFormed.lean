import GoRaftKV.Raft.Host
import GoRaftKV.Storage.Logs

namespace GoRaftKV.Raft

open Storage Library

/-- The log continues the snapshot without a gap, and the four indexes are in order. -/
structure WellFormed (n : Node) : Prop where
  contiguous : Contiguous n.snapshot.lastIncludedIndex n.log
  compacted : n.snapshot.lastIncludedIndex ≤ n.lastApplied
  applied : n.lastApplied ≤ n.commitIndex
  committed : n.commitIndex ≤ n.lastIndexLocked

namespace Node

variable {n : Node}

theorem lastIndexLocked_eq (contiguous : Contiguous n.snapshot.lastIncludedIndex n.log) :
    n.lastIndexLocked = n.snapshot.lastIncludedIndex + n.log.length :=
  contiguous.lastIndex

theorem entryAtLocked_eq (contiguous : Contiguous n.snapshot.lastIncludedIndex n.log)
    (index : Nat) :
    n.entryAtLocked index =
      if index ≤ n.snapshot.lastIncludedIndex then none
      else n.log[index - n.snapshot.lastIncludedIndex - 1]? := by
  unfold entryAtLocked
  split
  · rfl
  · rename_i after
    cases present : n.log[index - n.snapshot.lastIncludedIndex - 1]? with
    | none => rfl
    | some entry =>
        have position := contiguous _ entry present
        have same : entry.index = index := by omega
        simp [same]

theorem entryAtLocked_of_gt (contiguous : Contiguous n.snapshot.lastIncludedIndex n.log)
    {index : Nat} (after : n.snapshot.lastIncludedIndex < index) :
    n.entryAtLocked index = n.log[index - n.snapshot.lastIncludedIndex - 1]? := by
  rw [entryAtLocked_eq contiguous, if_neg (by omega)]

theorem entryAtLocked_index {index : Nat} {entry : LogEntry}
    (present : n.entryAtLocked index = some entry) :
    entry.index = index ∧ n.snapshot.lastIncludedIndex < index ∧
      n.log[index - n.snapshot.lastIncludedIndex - 1]? = some entry := by
  unfold entryAtLocked at present
  split at present
  · cases present
  · rename_i after
    split at present
    · cases present
    · rename_i found atOffset
      split at present
      · rename_i same
        cases present
        exact ⟨same, by omega, atOffset⟩
      · cases present

theorem termAtLocked_of_gt {index : Nat} (after : n.snapshot.lastIncludedIndex < index) :
    n.termAtLocked index = (n.entryAtLocked index).map LogEntry.term := by
  unfold termAtLocked
  rw [if_neg (by omega), if_neg (by omega)]

theorem termAtLocked_bound (contiguous : Contiguous n.snapshot.lastIncludedIndex n.log)
    {index term : Nat} (after : n.snapshot.lastIncludedIndex ≤ index)
    (present : n.termAtLocked index = some term) : index ≤ n.lastIndexLocked := by
  rw [lastIndexLocked_eq contiguous]
  unfold termAtLocked at present
  split at present
  · omega
  · split at present
    · omega
    · rw [Option.map_eq_some_iff] at present
      obtain ⟨entry, present, -⟩ := present
      obtain ⟨-, inside, atOffset⟩ := entryAtLocked_index present
      have bound := (List.getElem?_eq_some_iff.mp atOffset).1
      omega

/-- The entries of a request that are not covered by the snapshot. -/
def uncovered (n : Node) (entries : List LogEntry) : List LogEntry :=
  entries.filter fun entry => n.snapshot.lastIncludedIndex < entry.index

theorem uncovered_all {start : Nat} {entries : List LogEntry} (ordered : Contiguous start entries)
    (compacted : n.snapshot.lastIncludedIndex ≤ start) : n.uncovered entries = entries := by
  apply List.filter_eq_self.mpr
  intro entry member
  exact decide_eq_true (compacted.trans_lt (ordered.mem member).1)

theorem validateFrom_contiguous {snapshotIndex prevLogIndex previous : Nat}
    {entries : List LogEntry}
    (valid : validateFrom snapshotIndex prevLogIndex previous entries = 0) :
    Contiguous (if previous = 0 then prevLogIndex else previous)
      (entries.filter fun entry => snapshotIndex < entry.index) := by
  induction entries generalizing previous with
  | nil => simp
  | cons head tail ih =>
      simp only [validateFrom] at valid
      split at valid
      · rename_i covered
        rw [List.filter_cons_of_neg (by simpa using covered)]
        exact ih valid
      · rename_i fresh
        split at valid
        · cases valid
        · rename_i first
          split at valid
          · cases valid
          · rename_i later
            have rest := ih valid
            have nonzero : head.index ≠ 0 := by omega
            rw [if_neg nonzero] at rest
            rw [List.filter_cons_of_pos (by simpa using Nat.lt_of_not_le fresh), contiguous_cons]
            have next : head.index = (if previous = 0 then prevLogIndex else previous) + 1 := by
              by_cases zero : previous = 0
              · rw [if_pos zero]
                by_contra differs
                exact first ⟨zero, differs⟩
              · rw [if_neg zero]
                by_contra differs
                exact later ⟨zero, differs⟩
            rw [← next]
            exact ⟨rfl, rest⟩

/-- The part of a request that `mergeEntriesLocked` appends in bulk: everything from the first entry
on that conflicts with the log in its term. -/
def spliced (n : Node) : List LogEntry → List LogEntry
  | [] => []
  | entry :: entries =>
      if entry.index ≤ n.snapshot.lastIncludedIndex then n.spliced entries
      else if entry.index ≤ n.lastIndexLocked then
        if n.termAtLocked entry.index = some entry.term then n.spliced entries
        else entry :: entries
      else []

/-- How the merging loop can end, from a log that already holds the request up to `done`. -/
inductive Merged (n : Node) (done : Nat) (result : MergeEntriesResult) (entries : List LogEntry) :
    Node × MergeEntriesResult → Prop
  | extended (more : List LogEntry)
      (added : more = (n.uncovered entries).drop (n.lastIndexLocked - done))
      (matching : ∀ entry ∈ (n.uncovered entries).take (n.lastIndexLocked - done),
        n.termAtLocked entry.index = some entry.term) :
      Merged n done result entries
        ({ n with log := n.log ++ more },
          { result with changed := result.changed || !more.isEmpty
                        appended := result.appended ++ more })
  | rejected (entry : LogEntry) (after : done < entry.index)
      (inside : entry.index ≤ n.lastIndexLocked)
      (conflict : n.termAtLocked entry.index ≠ some entry.term)
      (committed : entry.index ≤ n.commitIndex) :
      Merged n done result entries
        (n, { conflictIndex := entry.index, lastNewIndex := result.lastNewIndex })
  | replaced (entry : LogEntry) (front back : List LogEntry)
      (split : entries = front ++ entry :: back) (suffix : n.spliced entries = entry :: back)
      (after : done < entry.index) (inside : entry.index ≤ n.lastIndexLocked)
      (matching : ∀ other ∈ n.uncovered front, n.termAtLocked other.index = some other.term)
      (conflict : n.termAtLocked entry.index ≠ some entry.term)
      (uncommitted : n.commitIndex < entry.index) :
      Merged n done result entries
        ({ n with
           log := n.log.take (entry.index - n.snapshot.lastIncludedIndex - 1) ++ entry :: back },
          { changed := true, replaced := true, lastNewIndex := result.lastNewIndex })

theorem mergeLoop_merged (contiguous : Contiguous n.snapshot.lastIncludedIndex n.log)
    {done : Nat} {result : MergeEntriesResult} {entries : List LogEntry}
    (bound : done ≤ n.lastIndexLocked) (ordered : Contiguous done (n.uncovered entries)) :
    Merged n done result entries (n.mergeLoop result entries) := by
  induction entries generalizing n done result with
  | nil =>
      have ending := @Merged.extended n done result [] [] (by simp [uncovered])
        (by simp [uncovered])
      simpa [mergeLoop] using ending
  | cons head tail ih =>
      rw [mergeLoop]
      by_cases covered : head.index ≤ n.snapshot.lastIncludedIndex
      · rw [if_pos covered]
        have skip : n.uncovered (head :: tail) = n.uncovered tail :=
          List.filter_cons_of_neg (by simpa using covered)
        rw [skip] at ordered
        have tailSplice : n.spliced (head :: tail) = n.spliced tail := by
          simp only [spliced, if_pos covered]
        have recursive := @ih n contiguous done result bound ordered
        generalize n.mergeLoop result tail = outcome at recursive ⊢
        cases recursive with
        | extended more added matching =>
            exact .extended more (by rw [skip]; exact added) (by rw [skip]; exact matching)
        | rejected entry after inside conflict committed =>
            exact .rejected entry after inside conflict committed
        | replaced entry front back split suffix after inside matching conflict uncommitted =>
            refine .replaced entry (head :: front) back (by rw [split]; rfl)
              (by rw [tailSplice]; exact suffix) after inside ?_ conflict uncommitted
            have skipFront : n.uncovered (head :: front) = n.uncovered front :=
              List.filter_cons_of_neg (by simpa using covered)
            rw [skipFront]
            exact matching
      · rw [if_neg covered]
        have fresh : n.snapshot.lastIncludedIndex < head.index := Nat.lt_of_not_le covered
        have take : n.uncovered (head :: tail) = head :: n.uncovered tail :=
          List.filter_cons_of_pos (by simpa using fresh)
        rw [take, contiguous_cons] at ordered
        obtain ⟨next, rest⟩ := ordered
        by_cases inside : head.index ≤ n.lastIndexLocked
        · rw [if_pos inside]
          have gap : n.lastIndexLocked - done = n.lastIndexLocked - (done + 1) + 1 := by omega
          by_cases same : n.termAtLocked head.index = some head.term
          · rw [if_pos same]
            have tailSplice : n.spliced (head :: tail) = n.spliced tail := by
              simp only [spliced, if_neg covered, if_pos inside, if_pos same]
            have recursive := @ih n contiguous (done + 1) result (by omega) rest
            generalize n.mergeLoop result tail = outcome at recursive ⊢
            cases recursive with
            | extended more added matching =>
                refine .extended more ?_ ?_
                · rw [take, gap, List.drop_succ_cons]
                  exact added
                · rw [take, gap, List.take_succ_cons]
                  intro entry member
                  rcases List.mem_cons.mp member with rfl | member
                  · exact same
                  · exact matching entry member
            | rejected entry after inside conflict committed =>
                exact .rejected entry (by omega) inside conflict committed
            | replaced entry front back split suffix after inside matching conflict uncommitted =>
                refine .replaced entry (head :: front) back (by rw [split]; rfl)
                  (by rw [tailSplice]; exact suffix) (by omega) inside ?_ conflict uncommitted
                have takeFront : n.uncovered (head :: front) = head :: n.uncovered front :=
                  List.filter_cons_of_pos (by simpa using fresh)
                rw [takeFront]
                intro other member
                rcases List.mem_cons.mp member with rfl | member
                · exact same
                · exact matching other member
          · rw [if_neg same]
            by_cases committed : head.index ≤ n.commitIndex
            · rw [if_pos committed]
              exact .rejected head (by omega) inside same committed
            · rw [if_neg committed]
              simp only [truncateFromLocked, if_neg covered]
              exact .replaced head [] tail rfl
                (by simp only [spliced, if_neg covered, if_pos inside, if_neg same])
                (by omega) inside (by simp [uncovered]) same (by omega)
        · rw [if_neg inside]
          -- The log ends right before this entry, so from here on everything is appended.
          have atEnd : head.index = n.lastIndexLocked + 1 := by omega
          rw [if_neg (by simpa using atEnd)]
          have longer : Contiguous n.snapshot.lastIncludedIndex (n.log ++ [head]) := by
            rw [contiguous_append]
            refine ⟨contiguous, ?_⟩
            rw [contiguous_cons]
            rw [lastIndexLocked_eq contiguous] at atEnd
            exact ⟨atEnd, contiguous_nil _⟩
          have lastLonger : lastIndexLocked { n with log := n.log ++ [head] } = done + 1 := by
            rw [lastIndexLocked_eq (n := { n with log := n.log ++ [head] }) longer]
            rw [lastIndexLocked_eq contiguous] at atEnd bound
            simp only [List.length_append, List.length_singleton]
            omega
          have nothing : n.lastIndexLocked - done = 0 := by omega
          have recursive := @ih { n with log := n.log ++ [head] } longer (done + 1)
            { result with changed := true, appended := result.appended ++ [head] } (by omega) rest
          generalize mergeLoop { n with log := n.log ++ [head] }
            { result with changed := true, appended := result.appended ++ [head] } tail = outcome
            at recursive ⊢
          cases recursive with
          | extended more added matching =>
              rw [lastLonger, Nat.sub_self, List.drop_zero] at added
              have whole := @Merged.extended n done result (head :: tail) (head :: more)
                (by rw [nothing, List.drop_zero, take, added]; rfl) (by simp [nothing])
              simpa using whole
          | rejected entry after inside conflict committed => omega
          | replaced entry front back split suffix after inside matching conflict uncommitted =>
              omega

end Node

end GoRaftKV.Raft
