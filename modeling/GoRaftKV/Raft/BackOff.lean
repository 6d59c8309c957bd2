import GoRaftKV.Raft.Merging
import GoRaftKV.Raft.Refinement

/-! A leader in search of the entry from which a follower's log agrees with its own. -/

namespace GoRaftKV.Raft

open Storage Library Program

namespace Node

variable {cfg other : Config} {n m : Node} {peer : NodeId} {req : AppendEntriesRequest}

theorem walkBack_congr (snapshot : m.snapshot = n.snapshot) (log : m.log = n.log)
    (term index : Nat) :
    m.walkBack term index = n.walkBack term index := by
  induction index with
  | zero => rfl
  | succ index ih => rw [walkBack, walkBack, ih, snapshot, termAtLocked_congr snapshot log]

theorem conflictIndexLocked_congr (snapshot : m.snapshot = n.snapshot) (log : m.log = n.log)
    (index : Nat) :
    m.conflictIndexLocked index = n.conflictIndexLocked index := by
  have last : m.lastIndexLocked = n.lastIndexLocked := by simp only [lastIndexLocked, snapshot, log]
  simp only [conflictIndexLocked, last, snapshot, termAtLocked_congr snapshot log,
    walkBack_congr snapshot log]

theorem walkBack_bounds {term index : Nat} (after : n.snapshot.lastIncludedIndex < index) :
    n.snapshot.lastIncludedIndex < n.walkBack term index ∧ n.walkBack term index ≤ index := by
  induction index with
  | zero => omega
  | succ index ih =>
      rw [walkBack]
      split
      · rename_i goes
        have lower := ih (by omega)
        omega
      · exact ⟨after, le_rfl⟩

/-- Where the log lacks the entry or differs, the answer points below it, but not into the
snapshot. -/
theorem conflictIndexLocked_bounds (contiguous : Contiguous n.snapshot.lastIncludedIndex n.log)
    {index : Nat} (after : n.snapshot.lastIncludedIndex < index) :
    n.snapshot.lastIncludedIndex < n.conflictIndexLocked index ∧
      n.conflictIndexLocked index ≤ index := by
  have last := lastIndexLocked_eq contiguous
  unfold conflictIndexLocked
  split
  · omega
  · rename_i inside
    rw [if_neg (by omega)]
    rcases termAtLocked_inside contiguous after (Nat.le_of_not_lt inside) with ⟨term, found⟩
    rw [found]
    exact walkBack_bounds after

/-- `m` is `n` after a request of `term` that has left its log alone. -/
structure Heeded (n : Node) (term : Nat) (m : Node) : Prop where
  snapshot : m.snapshot = n.snapshot
  log : m.log = n.log
  commit : m.commitIndex = n.commitIndex
  applied : m.lastApplied = n.lastApplied
  term : m.currentTerm = term
  stopped : m.stopped = n.stopped
  fatal : m.storageFatal = n.storageFatal

/-- The previous entry of the request is compacted away, missing or different. -/
def Refuses (n : Node) (req : AppendEntriesRequest) : Prop :=
  req.prevLogIndex < n.snapshot.lastIncludedIndex ∨
    n.termAtLocked req.prevLogIndex ≠ some req.prevLogTerm

/-- Where the leader is told to try next. -/
def hint (n : Node) (req : AppendEntriesRequest) : Nat :=
  if req.prevLogIndex < n.snapshot.lastIncludedIndex then n.snapshot.lastIncludedIndex + 1
  else n.conflictIndexLocked req.prevLogIndex

theorem Refuses.matchEntries_value (refuses : n.Refuses req) : (n.matchEntries cfg req).value =
    ({ n with leaderID := req.leaderID },
      { term := n.currentTerm, conflictIndex := n.hint req,
        lastLogIndex := n.lastIndexLocked }) := by
  unfold matchEntries hint
  by_cases older : req.prevLogIndex < n.snapshot.lastIncludedIndex
  · simp only [if_pos older]
    rfl
  · have differs : termAtLocked { n with leaderID := req.leaderID } req.prevLogIndex ≠
      some req.prevLogTerm :=
      refuses.resolve_left older
    have same : conflictIndexLocked { n with leaderID := req.leaderID } req.prevLogIndex =
        n.conflictIndexLocked req.prevLogIndex := by
      apply conflictIndexLocked_congr <;> rfl
    simp only [if_neg older, if_pos differs, same]
    rfl

theorem Refuses.handleAppendEntries_value (hears : n.Hears cfg req.leaderID req.term)
    (refuses : n.Refuses req) :
    ∃ m resp, (n.handleAppendEntries cfg req).value = (m, resp) ∧ n.Heeded req.term m ∧
      resp.term = req.term ∧ resp.success = false ∧ resp.conflictIndex = n.hint req := by
  rcases yielded_eq n cfg req.leaderID hears.current with
    ⟨votedFor, leader, noop, waiters, delivered, yielded⟩
  have refused : (n.yielded cfg req.term req.leaderID).Refuses req := by
    rw [yielded]
    exact refuses
  have same : (n.yielded cfg req.term req.leaderID).hint req = n.hint req := by
    rw [hint, hint, conflictIndexLocked_congr (n := n) (by rw [yielded]) (by rw [yielded]), yielded]
  rw [hears.handleAppendEntries_value, refused.matchEntries_value, same, yielded]
  exact ⟨_, _, rfl, ⟨rfl, rfl, rfl, rfl, rfl, rfl, rfl⟩, rfl, rfl, rfl⟩

/-- The request that a leader builds for the entries after `prev`. -/
def appendRequest (n : Node) (cfg : Config) (prev prevTerm : Nat) : AppendEntriesRequest where
  term := n.currentTerm
  leaderID := cfg.id
  prevLogIndex := prev
  prevLogTerm := prevTerm
  entries := n.entriesFromLocked (prev + 1)
  leaderCommit := n.commitIndex

section Leader

variable (contiguous : Contiguous n.snapshot.lastIncludedIndex n.log) (leads : n.role = .leader)
  (running : n.stopped = false)

include leads running

theorem replicateToPeer_compacted (positive : 0 < n.nextIndex peer)
    (compacted : n.nextIndex peer ≤ n.snapshot.lastIncludedIndex) :
    n.replicateToPeer cfg peer = (n, .snapshot n.currentTerm n.snapshot) := by
  have eligible : ¬ (n.stopped = true ∨ n.role ≠ .leader) := by simp [running, leads]
  simp only [replicateToPeer, if_neg eligible, if_neg positive.ne', Function.update_eq_self,
    if_pos compacted]

include contiguous

theorem replicateToPeer_append {prev : Nat} (next : n.nextIndex peer = prev + 1)
    (after : n.snapshot.lastIncludedIndex ≤ prev) (inside : prev ≤ n.lastIndexLocked) :
    ∃ prevTerm, n.termAtLocked prev = some prevTerm ∧
      n.replicateToPeer cfg peer = (n, .append (n.appendRequest cfg prev prevTerm)) := by
  have eligible : ¬ (n.stopped = true ∨ n.role ≠ .leader) := by simp [running, leads]
  have ⟨prevTerm, found⟩ : ∃ prevTerm, n.termAtLocked prev = some prevTerm := by
    rcases after.eq_or_lt with same | later
    · by_cases zero : prev = 0
      · exact ⟨0, by rw [termAtLocked, if_pos zero]⟩
      · exact ⟨n.snapshot.lastIncludedTerm, by rw [termAtLocked, if_neg zero, if_pos same.symm]⟩
    · exact termAtLocked_inside contiguous later inside
  refine ⟨prevTerm, found, ?_⟩
  have same : Function.update n.nextIndex peer (prev + 1) = n.nextIndex := by
    rw [← next, Function.update_eq_self]
  have beyond : ¬ prev + 1 ≤ n.snapshot.lastIncludedIndex := by omega
  simp only [replicateToPeer, if_neg eligible, next, Nat.add_sub_cancel,
    if_neg (Nat.succ_ne_zero prev), same, if_neg beyond, found]
  rfl

end Leader

theorem replicateReply_refused {resp : AppendEntriesResponse} (leads : n.role = .leader)
    (current : n.currentTerm = req.term) (answered : resp.term = req.term)
    (failed : resp.success = false) (conflict : 0 < resp.conflictIndex) :
    (n.replicateReply cfg peer req resp).value =
      ({ n with nextIndex := Function.update n.nextIndex peer resp.conflictIndex }, none) := by
  have settled : ¬ n.currentTerm < resp.term := by omega
  have ours : ¬ (n.role ≠ .leader ∨ n.currentTerm ≠ req.term) := by simp [leads, current]
  simp only [replicateReply, if_neg settled, if_neg ours, failed, Bool.false_eq_true, if_false,
    if_pos conflict, pure_eq, value_ret]

theorem replicateReply_accepted {resp : AppendEntriesResponse} (leads : n.role = .leader)
    (current : n.currentTerm = req.term) (answered : resp.term = req.term)
    (success : resp.success = true) :
    ∃ m, (n.replicateReply cfg peer req resp).value = (m, some true) := by
  have settled : ¬ n.currentTerm < resp.term := by omega
  have ours : ¬ (n.role ≠ .leader ∨ n.currentTerm ≠ req.term) := by simp [leads, current]
  simp only [replicateReply, if_neg settled, if_neg ours, success, if_true, value_bind, pure_eq,
    value_ret]
  exact ⟨_, rfl⟩

end Node

structure Pair where
  leader : Node
  follower : Node

namespace Pair

/-- What an attempt to replicate comes to. -/
inductive Verdict where
  | success
  | transfer
  | failed
  deriving DecidableEq

variable (cfg other : Config) (peer : NodeId)

/-- One round of the loop in `replicateToPeer`, with a peer that answers and stores that do not
fail; without a verdict the loop goes on, in this call or in the next one. -/
def attempt (pair : Pair) : Pair × Option Verdict :=
  match pair.leader.replicateToPeer cfg peer with
  | (leader, .quit) => ({ pair with leader := leader }, some .failed)
  | (leader, .retry) => ({ pair with leader := leader }, none)
  | (leader, .snapshot _ _) => ({ pair with leader := leader }, some .transfer)
  | (leader, .append req) =>
      let (follower, resp) := (pair.follower.handleAppendEntries other req).value
      let (leader, result) := (leader.replicateReply cfg peer req resp).value
      (⟨leader, follower⟩, result.map fun success => if success then .success else .failed)

/-- At most so many rounds, up to the first verdict. -/
def attempts (pair : Pair) : Nat → Pair × Option Verdict
  | 0 => (pair, none)
  | rounds + 1 =>
      match pair.attempt cfg other peer with
      | (next, none) => next.attempts rounds
      | (next, some verdict) => (next, some verdict)

/-- The leader has the follower's committed entries, the two histories match wherever their terms
do, and the follower listens to the leader. -/
structure Agrees (pair : Pair) : Prop where
  leads : pair.leader.role = .leader
  running : pair.leader.stopped = false
  sound : WellFormed pair.leader
  whole : pair.leader.Whole
  hears : pair.follower.Hears other cfg.id pair.leader.currentTerm
  copySound : WellFormed pair.follower
  copyWhole : pair.follower.Whole
  committed : pair.follower.fullLog.take pair.follower.commitIndex <+: pair.leader.fullLog
  matching : ∀ index term, termOfIndex pair.leader.fullLog index = some term →
    termOfIndex pair.follower.fullLog index = some term →
    pair.leader.fullLog.take index = pair.follower.fullLog.take index

namespace Agrees

variable {cfg other : Config} {peer : NodeId} {pair : Pair} (agrees : pair.Agrees cfg other)

include agrees

theorem entry_of_committed {position : Nat} (bound : position < pair.follower.commitIndex) :
    pair.follower.fullLog[position]? = pair.leader.fullLog[position]? := by
  have reach := agrees.copySound.committed
  rw [agrees.copyWhole.lastIndex] at reach
  rcases agrees.committed with ⟨rest, whole⟩
  rw [← whole, List.getElem?_append_left (by rw [List.length_take]; omega),
    List.getElem?_take_of_lt bound]

theorem committed_bound : pair.follower.commitIndex ≤ pair.leader.lastIndexLocked := by
  have reach := agrees.copySound.committed
  have length := agrees.committed.length_le
  rw [agrees.copyWhole.lastIndex] at reach
  rw [List.length_take, min_eq_left reach] at length
  rw [agrees.whole.lastIndex]
  exact length

theorem previous {prev prevTerm : Nat} (here : pair.leader.snapshot.lastIncludedIndex ≤ prev)
    (there : pair.follower.snapshot.lastIncludedIndex ≤ prev)
    (bound : prev ≤ pair.follower.commitIndex)
    (found : pair.leader.termAtLocked prev = some prevTerm) :
    pair.follower.termAtLocked prev = some prevTerm := by
  -- Up to the follower's commit index the previous entry cannot differ.
  rcases Nat.eq_zero_or_pos prev with rfl | positive
  · exact found
  · rw [agrees.whole.termAt positive here] at found
    rw [agrees.copyWhole.termAt positive there, termOfIndex, agrees.entry_of_committed (by omega)]
    exact found

theorem entriesFrom {prev : Nat} (here : pair.leader.snapshot.lastIncludedIndex ≤ prev) :
    pair.leader.entriesFromLocked (prev + 1) = pair.leader.fullLog.drop prev := by
  have length := agrees.whole.length
  have rest : prev + 1 - pair.leader.snapshot.lastIncludedIndex - 1 =
      prev - pair.leader.snapshot.history.length := by
    omega
  have compacted : pair.leader.snapshot.history.drop prev = [] := List.drop_of_length_le (by omega)
  rw [Node.entriesFromLocked, agrees.whole.contiguous.filter_le (by omega), Node.fullLog,
    List.drop_append, compacted, List.nil_append, rest]

theorem accepts {prev prevTerm : Nat} (here : pair.leader.snapshot.lastIncludedIndex ≤ prev)
    (there : pair.follower.snapshot.lastIncludedIndex ≤ prev)
    (found : pair.follower.termAtLocked prev = some prevTerm) :
    pair.follower.Accepts (pair.leader.appendRequest cfg prev prevTerm) := by
  have ordered : Contiguous prev (pair.leader.fullLog.drop prev) := by
    have numbered := agrees.whole.numbered.drop prev
    rwa [Nat.zero_add] at numbered
  have entries := agrees.entriesFrom here
  refine ⟨there, found, ?_, ?_⟩
  · rw [Node.appendRequest, entries]
    exact ordered
  · intro entry member old
    rw [Node.appendRequest, entries] at member
    have after := (ordered.mem member).1
    have place := ordered.position member
    have position : prev + (entry.index - prev - 1) = entry.index - 1 := by omega
    rw [List.getElem?_drop, position] at place
    rw [agrees.copyWhole.termAt (by omega) (by omega), termOfIndex,
      agrees.entry_of_committed (by omega), place]
    rfl

theorem entry_of_matching {index position : Nat} {term : Nat} (before : position < index)
    (here : termOfIndex pair.leader.fullLog index = some term)
    (there : termOfIndex pair.follower.fullLog index = some term) :
    pair.follower.fullLog[position]? = pair.leader.fullLog[position]? := by
  rw [← List.getElem?_take_of_lt before, ← agrees.matching index term here there,
    List.getElem?_take_of_lt before]

theorem caught_up {prev prevTerm : Nat} {copy : Node}
    (here : pair.leader.snapshot.lastIncludedIndex ≤ prev)
    (there : pair.follower.snapshot.lastIncludedIndex ≤ prev)
    (found : pair.leader.termAtLocked prev = some prevTerm)
    (same : pair.follower.termAtLocked prev = some prevTerm)
    (contiguous : Contiguous copy.snapshot.lastIncludedIndex copy.log)
    (spliced : pair.follower.Spliced (pair.leader.appendRequest cfg prev prevTerm) copy) :
    pair.leader.fullLog <+: copy.fullLog := by
  have compacted := agrees.copyWhole.length
  have whole : copy.Whole := by
    refine ⟨?_, ?_, contiguous⟩
    · rw [spliced.snapshot]
      exact agrees.copyWhole.folded
    · rw [spliced.snapshot]
      exact agrees.copyWhole.ordered
  apply List.prefix_iff_getElem?.mpr
  intro position inside
  rw [← List.getElem?_eq_getElem inside]
  rcases Nat.lt_or_ge position pair.follower.snapshot.lastIncludedIndex with covered | beyond
  · have applied := agrees.copySound.compacted
    have ready := agrees.copySound.applied
    rw [← agrees.entry_of_committed (by omega), Node.fullLog, Node.fullLog, spliced.snapshot,
      List.getElem?_append_left (by omega), List.getElem?_append_left (by omega)]
  have lookup : copy.fullLog[position]? = copy.entryAtLocked (position + 1) := by
    rw [whole.entryAt (by rw [spliced.snapshot]; omega)]
    rfl
  have old : pair.follower.entryAtLocked (position + 1) = pair.follower.fullLog[position]? := by
    rw [agrees.copyWhole.entryAt (by omega)]
    rfl
  rw [lookup]
  rcases Nat.lt_or_ge position prev with before | after
  · rw [spliced.before (position + 1) before, old]
    rw [agrees.whole.termAt (by omega) here] at found
    rw [agrees.copyWhole.termAt (by omega) there] at same
    exact agrees.entry_of_matching before found same
  · -- The request carries this entry of the leader.
    have present := List.getElem?_eq_getElem inside
    generalize pair.leader.fullLog[position] = entry at present
    have index : entry.index = position + 1 := by
      have numbered := agrees.whole.numbered position entry present
      omega
    have member : entry ∈ (pair.leader.appendRequest cfg prev prevTerm).entries := by
      rw [Node.appendRequest, agrees.entriesFrom here]
      apply List.mem_of_getElem?
      rw [List.getElem?_drop, Nat.add_sub_cancel' after]
      exact present
    rw [present, ← index]
    by_cases matching : ∀ earlier ∈ (pair.leader.appendRequest cfg prev prevTerm).entries,
        earlier.index ≤ entry.index → pair.follower.termAtLocked earlier.index = some earlier.term
    · have own := matching entry member le_rfl
      have term : termOfIndex pair.leader.fullLog entry.index = some entry.term := by
        rw [termOfIndex, index, Nat.add_sub_cancel, present]
        rfl
      rw [agrees.copyWhole.termAt (by omega) (by omega)] at own
      rw [spliced.present entry member matching, index, old, ← present]
      exact agrees.entry_of_matching (by omega) term own
    · exact spliced.written entry member matching

theorem attempt_transfer (positive : 0 < pair.leader.nextIndex peer)
    (compacted : pair.leader.nextIndex peer ≤ pair.leader.snapshot.lastIncludedIndex) :
    pair.attempt cfg other peer = (pair, some .transfer) := by
  rw [attempt, Node.replicateToPeer_compacted agrees.leads agrees.running positive compacted]

theorem attempt_success {prev prevTerm : Nat} (here : pair.leader.snapshot.lastIncludedIndex ≤ prev)
    (there : pair.follower.snapshot.lastIncludedIndex ≤ prev)
    (found : pair.leader.termAtLocked prev = some prevTerm)
    (same : pair.follower.termAtLocked prev = some prevTerm)
    (sends : pair.leader.replicateToPeer cfg peer =
      (pair.leader, .append (pair.leader.appendRequest cfg prev prevTerm))) :
    ∃ final, pair.attempt cfg other peer = (final, some .success) ∧
      pair.leader.fullLog <+: final.follower.fullLog := by
  have accepts := agrees.accepts here there same
  rcases accepts.handleAppendEntries_value agrees.copySound agrees.hears with
    ⟨copy, resp, value, success, term, spliced, -⟩
  have ⟨leader, reply⟩ : ∃ leader, (pair.leader.replicateReply cfg peer
      (pair.leader.appendRequest cfg prev prevTerm) resp).value = (leader, some true) :=
    Node.replicateReply_accepted agrees.leads rfl term success
  have contiguous : Contiguous copy.snapshot.lastIncludedIndex copy.log := by
    have safe : pair.follower.SpliceSafe (pair.leader.appendRequest cfg prev prevTerm).entries :=
      Node.spliceSafe_of_contiguous prev accepts.ordered
    have moves : Node.Moves other pair.follower (pair.follower.handleAppendEntries other
        (pair.leader.appendRequest cfg prev prevTerm)).value.1 :=
      (Node.handleAppendEntries_moves agrees.copySound safe).value
    rw [value] at moves
    exact (moves.upholds agrees.copySound).wellFormed.contiguous
  refine ⟨⟨leader, copy⟩, ?_, agrees.caught_up here there found same contiguous spliced⟩
  simp only [attempt, sends, value, reply]
  rfl

theorem attempt_refused {prev prevTerm : Nat}
    (refuses : pair.follower.Refuses (pair.leader.appendRequest cfg prev prevTerm))
    (hinted : 0 < pair.follower.hint (pair.leader.appendRequest cfg prev prevTerm))
    (sends : pair.leader.replicateToPeer cfg peer =
      (pair.leader, .append (pair.leader.appendRequest cfg prev prevTerm))) :
    ∃ copy nextIndex, pair.follower.Heeded pair.leader.currentTerm copy ∧
      nextIndex peer = pair.follower.hint (pair.leader.appendRequest cfg prev prevTerm) ∧
      pair.attempt cfg other peer = (⟨{ pair.leader with nextIndex := nextIndex }, copy⟩,
        none) := by
  rcases refuses.handleAppendEntries_value agrees.hears with
    ⟨copy, resp, value, heeded, term, failed, conflict⟩
  rw [← conflict] at hinted ⊢
  have reply : (pair.leader.replicateReply cfg peer (pair.leader.appendRequest cfg prev prevTerm)
      resp).value = _ :=
    Node.replicateReply_refused agrees.leads rfl term failed hinted
  refine ⟨copy, Function.update pair.leader.nextIndex peer resp.conflictIndex, heeded,
    Function.update_self peer _ _, ?_⟩
  simp only [attempt, sends, value, reply]
  rfl

theorem heeded {copy : Node} (heeded : pair.follower.Heeded pair.leader.currentTerm copy)
    (nextIndex : NodeId → Nat) :
    Agrees cfg other ⟨{ pair.leader with nextIndex := nextIndex }, copy⟩ := by
  have log : copy.fullLog = pair.follower.fullLog := by
    rw [Node.fullLog, Node.fullLog, heeded.snapshot, heeded.log]
  constructor
  case leads => exact agrees.leads
  case running => exact agrees.running
  case sound => exact ⟨agrees.sound.contiguous, agrees.sound.compacted, agrees.sound.applied,
    agrees.sound.committed⟩
  case whole => exact ⟨agrees.whole.folded, agrees.whole.ordered, agrees.whole.contiguous⟩
  case hears =>
    exact ⟨heeded.stopped.trans agrees.hears.running, heeded.fatal.trans agrees.hears.sound,
      agrees.hears.known, heeded.term.le⟩
  case copySound =>
    have sound := agrees.copySound
    constructor
    · rw [heeded.snapshot, heeded.log]
      exact sound.contiguous
    · rw [heeded.snapshot, heeded.applied]
      exact sound.compacted
    · rw [heeded.applied, heeded.commit]
      exact sound.applied
    · rw [heeded.commit, Node.lastIndexLocked, heeded.snapshot, heeded.log]
      exact sound.committed
  case copyWhole =>
    have whole := agrees.copyWhole
    constructor
    · rw [heeded.snapshot]
      exact whole.folded
    · rw [heeded.snapshot]
      exact whole.ordered
    · rw [heeded.snapshot, heeded.log]
      exact whole.contiguous
  case committed =>
    rw [log, heeded.commit]
    exact agrees.committed
  case matching =>
    rw [log]
    exact agrees.matching

end Agrees

/-- A round without a verdict: the leader tries again from another index. -/
structure Retries (pair later : Pair) : Prop where
  agrees : later.Agrees cfg other
  log : later.leader.fullLog = pair.leader.fullLog
  snapshot : later.leader.snapshot = pair.leader.snapshot
  copied : later.follower.snapshot = pair.follower.snapshot
  positive : 0 < later.leader.nextIndex peer
  inside : later.leader.nextIndex peer ≤ later.leader.lastIndexLocked + 1
  moved : later.leader.nextIndex peer < pair.leader.nextIndex peer ∨
    (pair.leader.nextIndex peer ≤ pair.follower.snapshot.lastIncludedIndex ∧
      later.leader.nextIndex peer = pair.follower.snapshot.lastIncludedIndex + 1)
  unsettled : pair.leader.nextIndex peer ≠ pair.follower.snapshot.lastIncludedIndex + 1

/-- What one round can come to. -/
inductive Round (pair : Pair) : Pair × Option Verdict → Prop
  | transfer (compacted : pair.leader.nextIndex peer ≤ pair.leader.snapshot.lastIncludedIndex) :
      Round pair (pair, some .transfer)
  | success (final : Pair) (same : pair.leader.fullLog <+: final.follower.fullLog) :
      Round pair (final, some .success)
  | again (later : Pair) (retries : Retries cfg other peer pair later) : Round pair (later, none)

variable {cfg other : Config} {peer : NodeId} {pair : Pair}

theorem Agrees.round (agrees : pair.Agrees cfg other) (positive : 0 < pair.leader.nextIndex peer)
    (inside : pair.leader.nextIndex peer ≤ pair.leader.lastIndexLocked + 1) :
    Round cfg other peer pair (pair.attempt cfg other peer) := by
  rcases Nat.lt_or_ge pair.leader.snapshot.lastIncludedIndex (pair.leader.nextIndex peer) with
    after | compacted
  case inr =>
    rw [agrees.attempt_transfer positive compacted]
    exact .transfer compacted
  obtain ⟨prev, next⟩ : ∃ prev, pair.leader.nextIndex peer = prev + 1 :=
    ⟨_, (Nat.succ_pred_eq_of_pos positive).symm⟩
  have here : pair.leader.snapshot.lastIncludedIndex ≤ prev := by omega
  have ⟨prevTerm, found, sends⟩ : ∃ prevTerm, pair.leader.termAtLocked prev = some prevTerm ∧
      pair.leader.replicateToPeer cfg peer =
        (pair.leader, .append (pair.leader.appendRequest cfg prev prevTerm)) :=
    Node.replicateToPeer_append agrees.sound.contiguous agrees.leads agrees.running next here
      (by omega)
  have compacted := agrees.copySound.compacted
  have applied := agrees.copySound.applied
  have committed := agrees.committed_bound
  rcases Nat.lt_or_ge prev pair.follower.snapshot.lastIncludedIndex with older | there
  · have jump : pair.follower.hint (pair.leader.appendRequest cfg prev prevTerm) =
        pair.follower.snapshot.lastIncludedIndex + 1 := if_pos older
    rcases agrees.attempt_refused (Or.inl older) (by omega) sends with
      ⟨copy, nextIndex, heeded, hinted, ends⟩
    rw [ends]
    refine .again _ ⟨agrees.heeded heeded nextIndex, rfl, rfl, heeded.snapshot, ?_, ?_,
      Or.inr ⟨by omega, hinted.trans jump⟩, by omega⟩
    · change 0 < nextIndex peer
      omega
    · change nextIndex peer ≤ pair.leader.lastIndexLocked + 1
      omega
  by_cases same : pair.follower.termAtLocked prev = some prevTerm
  · rcases agrees.attempt_success here there found same sends with ⟨final, ends, copied⟩
    rw [ends]
    exact .success final copied
  · have beyond : pair.follower.commitIndex < prev := by
      by_contra within
      exact same (agrees.previous here there (Nat.le_of_not_lt within) found)
    have lower : pair.follower.hint (pair.leader.appendRequest cfg prev prevTerm) =
        pair.follower.conflictIndexLocked prev := if_neg (Nat.not_lt.mpr there)
    have ⟨low, high⟩ : _ ∧ pair.follower.conflictIndexLocked prev ≤ prev :=
      Node.conflictIndexLocked_bounds agrees.copySound.contiguous (by omega)
    rcases agrees.attempt_refused (Or.inr same) (by omega) sends with
      ⟨copy, nextIndex, heeded, hinted, ends⟩
    rw [ends]
    refine .again _ ⟨agrees.heeded heeded nextIndex, rfl, rfl, heeded.snapshot, ?_, ?_,
      Or.inl ?_, by omega⟩
    · change 0 < nextIndex peer
      omega
    · change nextIndex peer ≤ pair.leader.lastIndexLocked + 1
      omega
    · change nextIndex peer < pair.leader.nextIndex peer
      omega

theorem attempts_succ {later : Pair} (again : pair.attempt cfg other peer = (later, none))
    (rounds : Nat) :
    pair.attempts cfg other peer (rounds + 1) = later.attempts cfg other peer rounds := by
  rw [attempts, again]

/-- The follower has the leader's log, or it needs the leader's snapshot. -/
def Settled (peer : NodeId) (pair : Pair) : Pair × Option Verdict → Prop
  | (final, some .success) => pair.leader.fullLog <+: final.follower.fullLog
  | (final, some .transfer) => final.leader.nextIndex peer ≤ pair.leader.snapshot.lastIncludedIndex
  | _ => False

/-- The first verdict comes in the last of these rounds. Until then each refusal lowers
`nextIndex`, except that the last one may raise it to the end of the follower's snapshot. -/
structure Converges (cfg other : Config) (peer : NodeId) (pair : Pair) (rounds : Nat) : Prop where
  settled : pair.Settled peer (pair.attempts cfg other peer rounds)
  refused : ∀ round < rounds, (pair.attempts cfg other peer round).2 = none
  moved : ∀ round, round + 1 < rounds →
    (pair.attempts cfg other peer (round + 1)).1.leader.nextIndex peer <
      (pair.attempts cfg other peer round).1.leader.nextIndex peer ∨
    round + 2 = rounds ∧
      (pair.attempts cfg other peer round).1.leader.nextIndex peer ≤
      pair.follower.snapshot.lastIncludedIndex ∧
        (pair.attempts cfg other peer (round + 1)).1.leader.nextIndex peer =
        pair.follower.snapshot.lastIncludedIndex + 1

theorem Converges.once {final : Pair} {verdict : Verdict}
    (ends : pair.attempt cfg other peer = (final, some verdict))
    (settled : pair.Settled peer (final, some verdict)) :
    Converges cfg other peer pair 1 := by
  constructor
  case settled =>
    rw [attempts, ends]
    exact settled
  case refused =>
    intro round before
    rw [Nat.lt_one_iff.mp before]
    rfl
  case moved =>
    intro round before
    omega

theorem Retries.settled {later : Pair} {outcome : Pair × Option Verdict}
    (retries : Retries cfg other peer pair later) (settled : later.Settled peer outcome) :
    pair.Settled peer outcome := by
  rcases outcome with ⟨final, verdict⟩
  unfold Settled at settled ⊢
  rw [retries.log, retries.snapshot] at settled
  exact settled

theorem Converges.more {later : Pair} {rounds : Nat}
    (converges : Converges cfg other peer later rounds)
    (again : pair.attempt cfg other peer = (later, none))
    (retries : Retries cfg other peer pair later)
    (first : later.leader.nextIndex peer < pair.leader.nextIndex peer ∨ rounds = 1) :
    Converges cfg other peer pair (rounds + 1) := by
  have shift := attempts_succ again
  constructor
  case settled =>
    rw [shift]
    exact retries.settled converges.settled
  case refused =>
    intro round before
    cases round with
    | zero => rfl
    | succ round =>
        rw [shift]
        exact converges.refused round (Nat.lt_of_succ_lt_succ before)
  case moved =>
    intro round before
    rw [shift]
    cases round with
    | zero =>
        rcases retries.moved with lower | jump
        · exact Or.inl lower
        · rcases first with lower | last
          · exact Or.inl lower
          · exact Or.inr ⟨by omega, jump⟩
    | succ round =>
        rw [shift, ← retries.copied]
        rcases converges.moved round (by omega) with lower | ⟨last, jump⟩
        · exact Or.inl lower
        · exact Or.inr ⟨by omega, jump⟩

theorem Agrees.settles (agrees : pair.Agrees cfg other)
    (boundary : pair.leader.nextIndex peer = pair.follower.snapshot.lastIncludedIndex + 1)
    (inside : pair.leader.nextIndex peer ≤ pair.leader.lastIndexLocked + 1) :
    Converges cfg other peer pair 1 := by
  have round := agrees.round (by omega) inside
  generalize ends : pair.attempt cfg other peer = outcome at round
  cases round with
  | transfer compacted => exact .once ends compacted
  | success final same => exact .once ends same
  | again later retries => exact absurd boundary retries.unsettled

/-- From every starting index in the leader's log the attempts come to a verdict. -/
theorem backOff_converges (agrees : pair.Agrees cfg other)
    (positive : 1 ≤ pair.leader.nextIndex peer)
    (inside : pair.leader.nextIndex peer ≤ pair.leader.lastIndexLocked + 1) :
    ∃ rounds ≤ pair.leader.nextIndex peer + 1, Converges cfg other peer pair rounds := by
  generalize start : pair.leader.nextIndex peer = next
  induction next using Nat.strong_induction_on generalizing pair with
  | _ next ih =>
      have round := agrees.round positive inside
      generalize ends : pair.attempt cfg other peer = outcome at round
      cases round with
      | transfer compacted => exact ⟨1, by omega, .once ends compacted⟩
      | success final same => exact ⟨1, by omega, .once ends same⟩
      | again later retries =>
          rcases retries.moved with lower | ⟨-, jump⟩
          · rcases ih _ (by omega) retries.agrees retries.positive retries.inside rfl with
              ⟨rounds, few, converges⟩
            exact ⟨rounds + 1, by omega, converges.more ends retries (Or.inl lower)⟩
          · rw [← retries.copied] at jump
            have converges := retries.agrees.settles jump retries.inside
            exact ⟨2, by omega, converges.more ends retries (Or.inr rfl)⟩

/-- The leader of term 3 and a follower with two entries of a leader that has been voted out. -/
def diverged : Pair where
  leader := {
    role := .leader, currentTerm := 3, commitIndex := 1, lastApplied := 1
    log := [Host.entryAt 1 1, Host.entryAt 2 1, Host.entryAt 3 3], nextIndex := fun _ => 4 }
  follower := {
    currentTerm := 2, commitIndex := 1, lastApplied := 1
    log := [Host.entryAt 1 1, Host.entryAt 2 2, Host.entryAt 3 2] }

theorem backOff_converges_diverged : (diverged.attempts (trio "b") (trio "a") "a" 1).2 = none ∧
    ∃ rounds ≤ 5, Converges (trio "b") (trio "a") "a" diverged rounds := by
  have agrees : diverged.Agrees (trio "b") (trio "a") := by
    constructor
    case leads => rfl
    case running => rfl
    case sound => exact ⟨by simp [diverged, Host.entryAt], by decide, by decide, by decide⟩
    case whole => exact ⟨rfl, by simp [diverged], by simp [diverged, Host.entryAt]⟩
    case hears => exact ⟨rfl, rfl, by decide, by decide⟩
    case copySound => exact ⟨by simp [diverged, Host.entryAt], by decide, by decide, by decide⟩
    case copyWhole => exact ⟨rfl, by simp [diverged], by simp [diverged, Host.entryAt]⟩
    case committed => decide
    case matching =>
      intro index term here there
      rcases index with _ | _ | _ | _ | index
      · rfl
      · rfl
      · rw [← there] at here
        cases here
      · rw [← there] at here
        cases here
      · cases here
  exact ⟨by decide, backOff_converges agrees (by decide) (by decide)⟩

end Pair

end GoRaftKV.Raft
