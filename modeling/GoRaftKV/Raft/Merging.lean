import GoRaftKV.Raft.Accepting
import GoRaftKV.Raft.Tracking

/-! What an `AppendEntries` request does that passes every check. -/

namespace GoRaftKV.Raft

open Storage Library Program

namespace Node

variable {cfg : Config} {n m : Node} {req : AppendEntriesRequest}

theorem validateFrom_ordered {snapshotIndex prevLogIndex previous : Nat} {entries : List LogEntry}
    (compacted : snapshotIndex ≤ if previous = 0 then prevLogIndex else previous)
    (ordered : Contiguous (if previous = 0 then prevLogIndex else previous) entries) :
    validateFrom snapshotIndex prevLogIndex previous entries = 0 := by
  induction entries generalizing previous with
  | nil => rfl
  | cons head tail ih =>
      obtain ⟨next, rest⟩ := contiguous_cons.mp ordered
      have positive : head.index ≠ 0 := by omega
      have first : ¬ (previous = 0 ∧ head.index ≠ prevLogIndex + 1) := by
        rintro ⟨zero, differs⟩
        rw [if_pos zero] at next
        exact differs next
      have later : ¬ (previous ≠ 0 ∧ head.index ≠ previous + 1) := by
        rintro ⟨nonzero, differs⟩
        rw [if_neg nonzero] at next
        exact differs next
      rw [validateFrom, if_neg (by omega), if_neg first, if_neg later]
      apply ih
      · rw [if_neg positive]
        omega
      · rw [if_neg positive, next]
        exact rest

/-- No entry contradicts a committed one. -/
def Spares (n : Node) (entries : List LogEntry) : Prop :=
  ∀ entry ∈ entries, entry.index ≤ n.commitIndex → n.termAtLocked entry.index = some entry.term

/-- The merging loop rejects nothing but a contradiction to a committed entry. -/
theorem mergeLoop_accepts (contiguous : Contiguous n.snapshot.lastIncludedIndex n.log) {done : Nat}
    {result : MergeEntriesResult} {entries : List LogEntry}
    (compacted : n.snapshot.lastIncludedIndex ≤ done) (bound : done ≤ n.lastIndexLocked)
    (committed : n.commitIndex ≤ n.lastIndexLocked) (ordered : Contiguous done entries)
    (spares : n.Spares entries) (none : result.conflictIndex = 0) :
    (n.mergeLoop result entries).2.conflictIndex = 0 := by
  induction entries generalizing n done result with
  | nil => exact none
  | cons head tail ih =>
      obtain ⟨next, rest⟩ := contiguous_cons.mp ordered
      rw [mergeLoop, if_neg (by omega)]
      split
      · rename_i inside
        split
        · exact ih contiguous (by omega) (by omega) committed rest
            (fun entry member => spares entry (List.mem_cons_of_mem head member)) none
        · rename_i conflict
          have uncommitted : ¬ head.index ≤ n.commitIndex :=
            fun old => conflict (spares head List.mem_cons_self old)
          rw [if_neg uncommitted]
      · rename_i outside
        rw [if_neg (by omega)]
        have longer : Contiguous n.snapshot.lastIncludedIndex (n.log ++ [head]) := by
          rw [contiguous_append, contiguous_cons]
          have last := lastIndexLocked_eq contiguous
          exact ⟨contiguous, by omega, contiguous_nil _⟩
        have last : lastIndexLocked { n with log := n.log ++ [head] } = done + 1 := by
          rw [lastIndexLocked_eq (n := { n with log := n.log ++ [head] }) longer]
          simp only [List.length_append, List.length_singleton]
          have before := lastIndexLocked_eq contiguous
          omega
        apply ih longer
        · exact compacted.trans (Nat.le_succ done)
        · rw [last]
        · change n.commitIndex ≤ _
          rw [last]
          omega
        · exact rest
        · -- What is left of the request lies beyond the old log, and so beyond the commit index.
          intro entry member old
          have after := (rest.mem member).1
          change entry.index ≤ n.commitIndex at old
          omega
        · exact none

/-- The previous entry matches, the entries follow it, and what they replace is not committed. -/
structure Accepts (n : Node) (req : AppendEntriesRequest) : Prop where
  compacted : n.snapshot.lastIncludedIndex ≤ req.prevLogIndex
  previous : n.termAtLocked req.prevLogIndex = some req.prevLogTerm
  ordered : Contiguous req.prevLogIndex req.entries
  spared : n.Spares req.entries

/-- The first `shared` entries of the request are in the log; there the log ends or differs. -/
inductive Diverges (n : Node) (req : AppendEntriesRequest) (shared : Nat) : Prop
  | ends (last : req.prevLogIndex + shared = n.lastIndexLocked)
  | differs (entry : LogEntry) (present : req.entries[shared]? = some entry)
      (inside : req.prevLogIndex + shared < n.lastIndexLocked)
      (conflict : n.termAtLocked entry.index ≠ some entry.term)

/-- The log up to the last shared entry and the rest of the request. -/
structure Joined (n : Node) (req : AppendEntriesRequest) (m : Node) (shared : Nat) : Prop where
  memory : m = { n with
    log := n.log.take (req.prevLogIndex + shared - n.snapshot.lastIncludedIndex) ++
      req.entries.drop shared }
  matching : ∀ entry ∈ req.entries.take shared, n.termAtLocked entry.index = some entry.term
  diverges : n.Diverges req shared

section Accepted

variable (wf : WellFormed n) (accepts : n.Accepts req)

include wf accepts

theorem Accepts.bound : req.prevLogIndex ≤ n.lastIndexLocked :=
  termAtLocked_bound wf.contiguous accepts.compacted accepts.previous

theorem Accepts.merge :
    ∃ m result, n.mergeEntriesLocked req.prevLogIndex req.entries = (m, result) ∧
      result.conflictIndex = 0 ∧ result.lastNewIndex = req.prevLogIndex + req.entries.length ∧
    Merged n req.prevLogIndex { lastNewIndex := req.prevLogIndex + req.entries.length } req.entries
      (m, result) := by
  have all := uncovered_all accepts.ordered accepts.compacted
  have bound := accepts.bound wf
  have ordered : Contiguous req.prevLogIndex (n.uncovered req.entries) := by
    rw [all]
    exact accepts.ordered
  have valid : n.validateEntriesLocked req.prevLogIndex req.entries = 0 :=
    validateFrom_ordered accepts.compacted accepts.ordered
  have newest := lastNewIndex_eq ordered
  rw [all] at newest
  have loop : n.mergeEntriesLocked req.prevLogIndex req.entries =
      n.mergeLoop { lastNewIndex := req.prevLogIndex + req.entries.length } req.entries := by
    rw [mergeEntriesLocked, valid, newest]
    rfl
  have none := @mergeLoop_accepts n wf.contiguous req.prevLogIndex
    { lastNewIndex := req.prevLogIndex + req.entries.length } req.entries accepts.compacted bound
    wf.committed accepts.ordered accepts.spared rfl
  have merged := @mergeLoop_merged n wf.contiguous req.prevLogIndex
    { lastNewIndex := req.prevLogIndex + req.entries.length } req.entries bound ordered
  rw [← loop] at none merged
  generalize n.mergeEntriesLocked req.prevLogIndex req.entries = outcome at none merged ⊢
  refine ⟨outcome.1, outcome.2, rfl, none, ?_, merged⟩
  cases merged <;> rfl

theorem Accepts.joined {result : MergeEntriesResult} (none : result.conflictIndex = 0)
    (merged : Merged n req.prevLogIndex { lastNewIndex := req.prevLogIndex + req.entries.length }
      req.entries (m, result)) : ∃ shared, Joined n req m shared := by
  have all := uncovered_all accepts.ordered accepts.compacted
  have bound := accepts.bound wf
  have last := lastIndexLocked_eq wf.contiguous
  have compacted := accepts.compacted
  generalize outcome : (m, result) = ending at merged
  cases merged with
  | extended more added matching =>
      cases outcome
      rw [all] at added matching
      refine ⟨n.lastIndexLocked - req.prevLogIndex, ?_, matching, .ends (by omega)⟩
      rw [List.take_of_length_le (by omega), added]
  | rejected entry after inside conflict committed =>
      cases outcome
      exact absurd none (Nat.ne_of_gt (Nat.zero_lt_of_lt after))
  | replaced entry front back split suffix after inside matching conflict uncommitted =>
      cases outcome
      have ordered := accepts.ordered
      rw [split, contiguous_append] at ordered
      rw [uncovered_all ordered.1 accepts.compacted] at matching
      have first := (contiguous_cons.mp ordered.2).1
      have keep : req.prevLogIndex + front.length - n.snapshot.lastIncludedIndex =
          entry.index - n.snapshot.lastIncludedIndex - 1 := by omega
      refine ⟨front.length, ?_, ?_, .differs entry ?_ (by omega) conflict⟩
      · rw [keep, split, List.drop_left]
      · rw [split, List.take_left]
        exact matching
      · rw [split, List.getElem?_append_right le_rfl, Nat.sub_self]
        rfl

theorem Joined.entryAt {shared : Nat} (joined : Joined n req m shared) (index : Nat) :
    m.entryAtLocked index =
    if index ≤ req.prevLogIndex + shared then n.entryAtLocked index
    else req.entries[index - req.prevLogIndex - 1]? := by
  have compacted := accepts.compacted
  have last := lastIndexLocked_eq wf.contiguous
  have kept : req.prevLogIndex + shared ≤ n.lastIndexLocked := by
    cases joined.diverges <;> omega
  have length : (n.log.take (req.prevLogIndex + shared - n.snapshot.lastIncludedIndex)).length =
      req.prevLogIndex + shared - n.snapshot.lastIncludedIndex := by
    rw [List.length_take]
    omega
  have contiguous : Contiguous n.snapshot.lastIncludedIndex
      (n.log.take (req.prevLogIndex + shared - n.snapshot.lastIncludedIndex) ++
        req.entries.drop shared) := by
    rw [contiguous_append, length]
    refine ⟨wf.contiguous.take _, ?_⟩
    have position : n.snapshot.lastIncludedIndex +
        (req.prevLogIndex + shared - n.snapshot.lastIncludedIndex) = req.prevLogIndex + shared := by
        omega
    rw [position]
    exact accepts.ordered.drop shared
  rw [joined.memory, entryAtLocked_eq contiguous, entryAtLocked_eq wf.contiguous]
  by_cases covered : index ≤ n.snapshot.lastIncludedIndex
  · have low : index ≤ req.prevLogIndex + shared := by omega
    simp only [if_pos covered, if_pos low]
  · simp only [if_neg covered]
    by_cases low : index ≤ req.prevLogIndex + shared
    · rw [if_pos low, List.getElem?_append_left (by omega), List.getElem?_take_of_lt (by omega)]
    · have offset : shared + (index - n.snapshot.lastIncludedIndex - 1 -
          (req.prevLogIndex + shared - n.snapshot.lastIncludedIndex)) =
            index - req.prevLogIndex - 1 := by omega
      rw [if_neg low, List.getElem?_append_right (by omega), length, List.getElem?_drop, offset]

theorem Joined.shared_iff {shared : Nat} (joined : Joined n req m shared) {entry : LogEntry}
    (member : entry ∈ req.entries) : entry.index ≤ req.prevLogIndex + shared ↔
      ∀ earlier ∈ req.entries, earlier.index ≤ entry.index →
        n.termAtLocked earlier.index = some earlier.term := by
  have after := (accepts.ordered.mem member).1
  constructor
  · intro low earlier among before
    have start := (accepts.ordered.mem among).1
    have place := accepts.ordered.position among
    rw [← List.getElem?_take_of_lt (show _ < shared by omega)] at place
    exact joined.matching earlier (List.mem_of_getElem? place)
  · intro matching
    by_contra high
    cases joined.diverges with
    | ends last =>
        have inside := termAtLocked_bound wf.contiguous (accepts.compacted.trans after.le)
          (matching entry member le_rfl)
        omega
    | differs other present inside conflict =>
        have index := accepts.ordered _ other present
        exact conflict (matching other (List.mem_of_getElem? present) (by omega))

end Accepted

def Conflicts (n : Node) (entries : List LogEntry) : Prop :=
  ∃ entry ∈ entries, ∃ term, n.termAtLocked entry.index = some term ∧ term ≠ entry.term

/-- `m` has the log of `n` with the request spliced in. An entry of the request counts as present
if it and those before it meet entries of their own terms. -/
structure Spliced (n : Node) (req : AppendEntriesRequest) (m : Node) : Prop where
  snapshot : m.snapshot = n.snapshot
  before : ∀ index ≤ req.prevLogIndex, m.entryAtLocked index = n.entryAtLocked index
  present : ∀ entry ∈ req.entries,
    (∀ earlier ∈ req.entries, earlier.index ≤ entry.index →
      n.termAtLocked earlier.index = some earlier.term) →
    m.entryAtLocked entry.index = n.entryAtLocked entry.index
  written : ∀ entry ∈ req.entries,
    ¬ (∀ earlier ∈ req.entries, earlier.index ≤ entry.index →
      n.termAtLocked earlier.index = some earlier.term) →
    m.entryAtLocked entry.index = some entry
  kept : ¬ n.Conflicts req.entries → ∀ index, req.prevLogIndex + req.entries.length < index →
    m.entryAtLocked index = n.entryAtLocked index
  dropped : n.Conflicts req.entries → ∀ index, req.prevLogIndex + req.entries.length < index →
    m.entryAtLocked index = none

theorem entryAtLocked_beyond (contiguous : Contiguous n.snapshot.lastIncludedIndex n.log)
    {index : Nat} (beyond : n.lastIndexLocked < index) : n.entryAtLocked index = none := by
  rw [lastIndexLocked_eq contiguous] at beyond
  rw [entryAtLocked_eq contiguous, if_neg (by omega)]
  exact List.getElem?_eq_none (by omega)

theorem termAtLocked_inside (contiguous : Contiguous n.snapshot.lastIncludedIndex n.log)
    {index : Nat} (after : n.snapshot.lastIncludedIndex < index)
    (inside : index ≤ n.lastIndexLocked) :
    ∃ term, n.termAtLocked index = some term := by
  rw [lastIndexLocked_eq contiguous] at inside
  rw [termAtLocked_of_gt after, entryAtLocked_of_gt contiguous after,
    List.getElem?_eq_getElem (by omega)]
  exact ⟨_, rfl⟩

section Accepted

variable (wf : WellFormed n) (accepts : n.Accepts req)

include wf accepts

theorem Joined.conflicts_iff {shared : Nat} (joined : Joined n req m shared) :
    n.Conflicts req.entries ↔ req.prevLogIndex + shared < n.lastIndexLocked := by
  constructor
  · rintro ⟨entry, member, term, found, differs⟩
    cases joined.diverges with
    | ends last =>
        have after := (accepts.ordered.mem member).1
        have inside := termAtLocked_bound wf.contiguous (accepts.compacted.trans after.le) found
        have same := (joined.shared_iff wf accepts member).mp (by omega) entry member le_rfl
        rw [found] at same
        exact absurd (Option.some.inj same) differs
    | differs other present inside conflict => exact inside
  · intro inside
    cases joined.diverges with
    | ends last => omega
    | differs entry present inside conflict =>
        have index := accepts.ordered _ entry present
        have compacted := accepts.compacted
        have ⟨term, found⟩ : ∃ term, n.termAtLocked entry.index = some term :=
          termAtLocked_inside wf.contiguous (by omega) (by omega)
        refine ⟨entry, List.mem_of_getElem? present, term, found, ?_⟩
        rintro rfl
        exact conflict found

theorem Joined.spliced {shared : Nat} (joined : Joined n req m shared) : n.Spliced req m := by
  have lookup := joined.entryAt wf accepts
  have absent (index : Nat) (beyond : req.prevLogIndex + req.entries.length < index) :
      req.entries[index - req.prevLogIndex - 1]? = none := List.getElem?_eq_none (by omega)
  constructor
  case snapshot => rw [joined.memory]
  case before =>
    intro index low
    rw [lookup, if_pos (by omega)]
  case present =>
    intro entry member matching
    rw [lookup, if_pos ((joined.shared_iff wf accepts member).mpr matching)]
  case written =>
    intro entry member differs
    rw [lookup, if_neg fun low => differs ((joined.shared_iff wf accepts member).mp low)]
    exact accepts.ordered.position member
  case kept =>
    intro agrees index beyond
    rw [joined.conflicts_iff wf accepts] at agrees
    rw [lookup]
    split
    · rfl
    · rw [absent index beyond, entryAtLocked_beyond wf.contiguous (by omega)]
  case dropped =>
    intro conflicts index beyond
    rw [joined.conflicts_iff wf accepts] at conflicts
    cases joined.diverges with
    | ends last => omega
    | differs entry present inside conflict =>
        have within := (List.getElem?_eq_some_iff.mp present).1
        rw [lookup, if_neg (by omega), absent index beyond]

end Accepted

theorem commitTo_value (newCommit : Nat) : (n.commitTo newCommit).value =
    ({ n with commitIndex := max n.commitIndex newCommit },
      { term := n.currentTerm, success := true, lastLogIndex := n.lastIndexLocked }) := by
  unfold commitTo
  split
  · rename_i later
    simp only [persistHardStateLocked, saveHardStateLocked, perform_bind, value_call, if_true,
      pure_eq, value_ret, max_eq_right later.le]
  · rename_i later
    simp only [pure_eq, value_ret, max_eq_left (Nat.le_of_not_lt later)]

theorem spliceEntries_value {result : MergeEntriesResult}
    (merge : n.mergeEntriesLocked req.prevLogIndex req.entries = (m, result))
    (none : result.conflictIndex = 0) :
    (n.spliceEntries cfg req).value =
    (m.commitTo (min req.leaderCommit result.lastNewIndex)).value := by
  simp only [spliceEntries, merge, none, Nat.lt_irrefl, if_false]
  split
  · simp only [perform_bind, value_call, if_true]
  · rfl

theorem Accepts.matchEntries_value (wf : WellFormed n) (accepts : n.Accepts req) :
    ∃ m resp, (n.matchEntries cfg req).value = (m, resp) ∧ resp.success = true ∧
      resp.term = n.currentTerm ∧ n.Spliced req m ∧
      m.commitIndex = max n.commitIndex
        (min req.leaderCommit (req.prevLogIndex + req.entries.length)) := by
  have after : ¬ req.prevLogIndex < n.snapshot.lastIncludedIndex := Nat.not_lt.mpr accepts.compacted
  have found : ¬ termAtLocked { n with leaderID := req.leaderID } req.prevLogIndex ≠
    some req.prevLogTerm :=
    not_not.mpr accepts.previous
  have led : WellFormed { n with leaderID := req.leaderID } :=
    ⟨wf.contiguous, wf.compacted, wf.applied, wf.committed⟩
  have accepted : Accepts { n with leaderID := req.leaderID } req :=
    ⟨accepts.compacted, accepts.previous, accepts.ordered, accepts.spared⟩
  rcases accepted.merge led with ⟨m, result, merge, none, newest, merged⟩
  rcases accepted.joined led none merged with ⟨shared, joined⟩
  have spliced := joined.spliced led accepted
  have term : m.currentTerm = n.currentTerm := by rw [joined.memory]
  have commit : m.commitIndex = n.commitIndex := by rw [joined.memory]
  simp only [matchEntries, if_neg after, if_neg found]
  rw [spliceEntries_value merge none, commitTo_value, newest, commit]
  exact ⟨_, _, rfl, rfl, term, ⟨spliced.snapshot, spliced.before, spliced.present, spliced.written,
    spliced.kept, spliced.dropped⟩, rfl⟩

theorem Accepts.handleAppendEntries_value (wf : WellFormed n)
    (hears : n.Hears cfg req.leaderID req.term) (accepts : n.Accepts req) :
    ∃ m resp, (n.handleAppendEntries cfg req).value = (m, resp) ∧ resp.success = true ∧
      resp.term = req.term ∧ n.Spliced req m ∧
      m.commitIndex = max n.commitIndex
        (min req.leaderCommit (req.prevLogIndex + req.entries.length)) := by
  rcases yielded_eq n cfg req.leaderID hears.current with
    ⟨votedFor, leader, noop, waiters, delivered, yielded⟩
  have follows : WellFormed (n.yielded cfg req.term req.leaderID) := by
    rw [yielded]
    exact ⟨wf.contiguous, wf.compacted, wf.applied, wf.committed⟩
  have accepted : (n.yielded cfg req.term req.leaderID).Accepts req := by
    rw [yielded]
    exact ⟨accepts.compacted, accepts.previous, accepts.ordered, accepts.spared⟩
  rw [hears.handleAppendEntries_value]
  rcases @Accepts.matchEntries_value cfg _ _ follows accepted with
    ⟨m, resp, value, success, term, spliced, commit⟩
  rw [yielded] at term spliced commit
  exact ⟨m, resp, value, success, term, ⟨spliced.snapshot, spliced.before, spliced.present,
    spliced.written, spliced.kept, spliced.dropped⟩, commit⟩

def behind : Node where
  currentTerm := 1
  log := [Host.entryAt 1 1, Host.entryAt 2 1, Host.entryAt 3 1]
  commitIndex := 1
  lastApplied := 1

end Node

end GoRaftKV.Raft
