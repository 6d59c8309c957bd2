import GoRaftKV.Raft.ProtocolMoves

/-! A merged request brings the log in line with its leader's, up to the last entry of the
request. -/

namespace GoRaftKV.Raft

open Storage Library Program

namespace AppendEntriesRequest.Follows

variable {req : AppendEntriesRequest} {a : Ideal} (follows : req.Follows a)

include follows

theorem part : (a.leaderLog req.term).take (req.prevLogIndex + req.entries.length) =
    (a.leaderLog req.term).take req.prevLogIndex ++ req.entries := by
  rcases follows.slice with ⟨rest, whole⟩
  have length : ((a.leaderLog req.term).take req.prevLogIndex ++ req.entries).length =
      req.prevLogIndex + req.entries.length := by
    rw [List.length_append, List.length_take_of_le follows.reach]
  calc
    _ = ((a.leaderLog req.term).take req.prevLogIndex ++ req.entries ++ rest).take
        (req.prevLogIndex + req.entries.length) := by rw [whole]
    _ = _ := by rw [← length, List.take_left]

theorem finish : req.prevLogIndex + req.entries.length ≤ (a.leaderLog req.term).length := by
  have shorter := follows.slice.length_le
  rwa [List.length_append, List.length_take_of_le follows.reach] at shorter

theorem entry {position : Nat} {entry : LogEntry} (present : req.entries[position]? = some entry) :
    (a.leaderLog req.term)[req.prevLogIndex + position]? = some entry := by
  have inside := (List.getElem?_eq_some_iff.mp present).1
  have length := List.length_take_of_le follows.reach
  have found : ((a.leaderLog req.term).take
      (req.prevLogIndex + req.entries.length))[req.prevLogIndex + position]? = some entry := by
    rw [follows.part, List.getElem?_append_right (by omega), length, Nat.add_sub_cancel_left]
    exact present
  rwa [List.getElem?_take_of_lt (by omega)] at found

theorem entryAt {entry : LogEntry} (member : entry ∈ req.entries) :
    termOfIndex (a.leaderLog req.term) entry.index = some entry.term := by
  have place := follows.ordered.position member
  have bounds := follows.ordered.mem member
  have found := follows.entry place
  have index : req.prevLogIndex + (entry.index - req.prevLogIndex - 1) = entry.index - 1 := by omega
  rw [index] at found
  rw [termOfIndex, found]
  rfl

end AppendEntriesRequest.Follows

namespace Node

variable {setting : Setting} {cfg : Config} {n m : Node} {a b : Ideal} {v : NodeId}
  {req : AppendEntriesRequest}

theorem aligned_more {more : List LogEntry}
    (extended : n.fullLog ++ more <+: b.leaderLog req.term) :
    b.aligned req.term (n.fullLog.length + more.length) n.fullLog = n.fullLog ++ more := by
  rcases extended with ⟨rest, whole⟩
  have part : (b.leaderLog req.term).take (n.fullLog.length + more.length) = n.fullLog ++ more := by
    rw [← whole, ← List.length_append, List.take_left]
  by_cases empty : more = []
  · subst empty
    rw [List.append_nil] at part ⊢
    exact Consensus.aligned_of_held (by rw [part])
  · rw [← part]
    apply Consensus.aligned_of_missing
    rw [part]
    intro held
    have longer := held.length_le
    have positive := List.length_pos_iff.mpr empty
    rw [List.length_append] at longer
    omega

section Merge

variable (inv : Consensus.Inv LogEntry.term setting.Quorum b)
  (realizes : n.Realizes b setting.codec v) (follows : req.Follows b)

include inv realizes follows

omit follows in
theorem Realizes.agrees {index term : Nat} (positive : 0 < index)
    (after : n.snapshot.lastIncludedIndex ≤ index) (here : n.termAtLocked index = some term)
    (there : termOfIndex (b.leaderLog req.term) index = some term) :
    n.fullLog.take index = (b.leaderLog req.term).take index := by
  have grounded := inv.logGrounded v
  rw [realizes.log] at grounded
  rw [realizes.whole.termAt positive after] at here
  exact agree_upTo grounded (inv.leaderLogGrounded req.term) positive here there

theorem Realizes.agreesPrevious (fits : n.Matches req) :
    n.fullLog.take req.prevLogIndex = (b.leaderLog req.term).take req.prevLogIndex := by
  rcases Nat.eq_zero_or_pos req.prevLogIndex with zero | positive
  · rw [zero, List.take_zero, List.take_zero]
  · refine realizes.agrees inv positive fits.compacted fits.previous ?_
    rw [endTerm_take positive follows.reach, follows.previous]

theorem Realizes.agreesFront (fits : n.Matches req) {front back : List LogEntry}
    (split : req.entries = front ++ back)
    (matching : ∀ entry ∈ front, n.termAtLocked entry.index = some entry.term) :
    n.fullLog.take (req.prevLogIndex + front.length) =
      (b.leaderLog req.term).take (req.prevLogIndex + front.length) := by
  cases last : front.getLast? with
  | none =>
      rw [List.getLast?_eq_none_iff.mp last]
      exact realizes.agreesPrevious inv follows fits
  | some entry =>
      have ordered := follows.ordered
      rw [split] at ordered
      have index := (contiguous_append.mp ordered).1.getLast last
      have member := List.mem_of_getLast? last
      have inRequest : entry ∈ req.entries := by
        rw [split]
        exact List.mem_append_left back member
      have bounds := follows.ordered.mem inRequest
      have compacted := fits.compacted
      rw [← index]
      exact realizes.agrees inv (by omega) (by omega) (matching entry member)
        (follows.entryAt inRequest)

theorem Realizes.extended (fits : n.Matches req) {more : List LogEntry}
    (added : more = req.entries.drop (n.fullLog.length - req.prevLogIndex))
    (matching : ∀ entry ∈ req.entries.take (n.fullLog.length - req.prevLogIndex),
      n.termAtLocked entry.index = some entry.term) :
    n.fullLog ++ more = b.aligned req.term (req.prevLogIndex + req.entries.length) n.fullLog ∧
      (more = [] ∨ n.fullLog ++ more <+: b.leaderLog req.term) := by
  have reach : req.prevLogIndex ≤ n.fullLog.length := by
    rw [← realizes.whole.lastIndex]
    exact termAtLocked_bound realizes.wf.contiguous fits.compacted fits.previous
  have front := realizes.agreesFront inv follows fits (List.take_append_drop _ req.entries).symm
    matching
  rw [List.length_take] at front
  by_cases short : req.entries.length ≤ n.fullLog.length - req.prevLogIndex
  · have nothing : more = [] := by rw [added, List.drop_eq_nil_of_le short]
    rw [min_eq_right short] at front
    refine ⟨?_, Or.inl nothing⟩
    rw [nothing, List.append_nil]
    apply (Consensus.aligned_of_held _).symm
    rw [← front]
    exact List.take_prefix _ _
  · have room : req.prevLogIndex + (n.fullLog.length - req.prevLogIndex) = n.fullLog.length := by
      omega
    have length : n.fullLog.length + more.length = req.prevLogIndex + req.entries.length := by
      rw [added, List.length_drop]
      omega
    rw [min_eq_left (by omega), room, List.take_length] at front
    have whole : n.fullLog ++ more = (b.leaderLog req.term).take (req.prevLogIndex +
        req.entries.length) := by
      have cut : ((b.leaderLog req.term).take (req.prevLogIndex + req.entries.length)).drop
          n.fullLog.length = more := by
        rw [follows.part, List.drop_append, List.length_take_of_le follows.reach,
          List.drop_eq_nil_of_le (by rw [List.length_take_of_le follows.reach]; exact reach), added,
            List.nil_append]
      have kept : ((b.leaderLog req.term).take (req.prevLogIndex + req.entries.length)).take
          n.fullLog.length = n.fullLog := by
        rw [List.take_take, min_eq_left (by omega)]
        exact front.symm
      have parts := List.take_append_drop n.fullLog.length
        ((b.leaderLog req.term).take (req.prevLogIndex + req.entries.length))
      rwa [kept, cut] at parts
    have inside : n.fullLog ++ more <+: b.leaderLog req.term := whole ▸ List.take_prefix _ _
    refine ⟨?_, Or.inr inside⟩
    rw [← length]
    exact (aligned_more inside).symm

theorem Realizes.replaced (fits : n.Matches req) {entry : LogEntry} {front back : List LogEntry}
    (split : req.entries = front ++ entry :: back)
    (matching : ∀ other ∈ front, n.termAtLocked other.index = some other.term)
    (conflict : n.termAtLocked entry.index ≠ some entry.term) :
    n.fullLog.take (entry.index - 1) ++ entry :: back =
      b.aligned req.term (req.prevLogIndex + req.entries.length) n.fullLog := by
  have agree := realizes.agreesFront inv follows fits split matching
  have member : entry ∈ req.entries := by
    rw [split]
    exact List.mem_append_right front List.mem_cons_self
  have index : entry.index - 1 = req.prevLogIndex + front.length := by
    have ordered := follows.ordered
    rw [split, contiguous_append, contiguous_cons] at ordered
    omega
  have bounds := follows.ordered.mem member
  have compacted := fits.compacted
  have whole : n.fullLog.take (entry.index - 1) ++ entry :: back =
      (b.leaderLog req.term).take (req.prevLogIndex + req.entries.length) := by
    have first : (b.leaderLog req.term).take (req.prevLogIndex + front.length) =
        (b.leaderLog req.term).take req.prevLogIndex ++ front := by
      have length : ((b.leaderLog req.term).take req.prevLogIndex ++ front).length =
          req.prevLogIndex + front.length := by
        rw [List.length_append, List.length_take_of_le follows.reach]
      calc
        _ = ((b.leaderLog req.term).take (req.prevLogIndex + req.entries.length)).take
            (req.prevLogIndex + front.length) := by
          rw [List.take_take, min_eq_left (by rw [split, List.length_append]; omega)]
        _ = ((b.leaderLog req.term).take req.prevLogIndex ++ front ++ entry :: back).take
            (req.prevLogIndex + front.length) := by rw [follows.part, split, List.append_assoc]
        _ = _ := by rw [← length, List.take_left]
    rw [index, agree, follows.part, first, split, List.append_assoc]
  rw [whole]
  apply (Consensus.aligned_of_missing _).symm
  intro held
  apply conflict
  rcases held with ⟨rest, equal⟩
  have covered : entry.index - 1 <
      ((b.leaderLog req.term).take (req.prevLogIndex + req.entries.length)).length := by
    rw [List.length_take_of_le follows.finish]
    omega
  rw [realizes.whole.termAt (by omega) (by omega), ← follows.entryAt member, termOfIndex,
    termOfIndex, ← equal, List.getElem?_append_left covered, List.getElem?_take_of_lt (by omega)]

theorem Realizes.merged (fits : n.Matches req) {result : MergeEntriesResult}
    (none : result.conflictIndex = 0)
    (merged : Merged n req.prevLogIndex { lastNewIndex := n.requestEnd req } req.entries
    (m, result)) :
    m.fullLog = b.aligned req.term (req.prevLogIndex + req.entries.length) n.fullLog ∧
      (result.replaced = false → result.appended = [] ∨
        n.fullLog ++ result.appended <+: b.leaderLog req.term) := by
  have all := uncovered_all follows.ordered fits.compacted
  have last := realizes.whole.lastIndex
  generalize outcome : (m, result) = ending at merged
  cases merged with
  | extended more added matching =>
      rw [all, last] at added matching
      rcases realizes.extended inv follows fits added matching with ⟨aligned, inside⟩
      cases outcome
      refine ⟨?_, fun _ => inside⟩
      rw [← aligned, fullLog, fullLog, List.append_assoc]
  | rejected entry after inside conflict committed =>
      cases outcome
      exact absurd none (Nat.ne_of_gt (Nat.zero_lt_of_lt after))
  | replaced entry front back split suffix after inside matching conflict uncommitted =>
      have part : n.uncovered front = front := by
        apply uncovered_all _ fits.compacted
        have ordered := follows.ordered
        rw [split] at ordered
        exact (contiguous_append.mp ordered).1
      rw [part] at matching
      have aligned := realizes.replaced inv follows fits split matching conflict
      cases outcome
      refine ⟨?_, by rintro ⟨⟩⟩
      have compacted := realizes.wf.compacted
      have applied := realizes.wf.applied
      have length := realizes.whole.length
      have history : n.snapshot.history.take (entry.index - 1) = n.snapshot.history :=
        List.take_of_length_le (by omega)
      have place : entry.index - 1 - n.snapshot.lastIncludedIndex =
          entry.index - n.snapshot.lastIncludedIndex - 1 := by
        omega
      rw [← aligned, fullLog, fullLog, List.take_append, history, length, place, List.append_assoc]

end Merge

/-- The two nodes differ in their logs only. -/
structure Relogged (n m : Node) : Prop where
  snapshot : m.snapshot = n.snapshot
  term : m.currentTerm = n.currentTerm
  voted : m.votedFor = n.votedFor
  role : m.role = n.role
  commit : m.commitIndex = n.commitIndex
  pending : m.pendingSnapshot = n.pendingSnapshot

theorem Realizes.spliced (realizes : n.Realizes b setting.codec v) (reach : Reaches setting v a b)
    (follows : req.Follows b) (role : n.role = .follower) (current : n.currentTerm = req.term)
    {index : Nat} (bound : index ≤ (b.leaderLog req.term).length) (wf : WellFormed m)
    (same : Relogged n m) (aligned : m.fullLog = b.aligned req.term index n.fullLog) :
    ∃ c, Reaches setting v a c ∧ m.Realizes c setting.codec v ∧ Acked c v req.term index ∧
      req.Follows c ∧ (c.leaderLog req.term).take index <+: m.fullLog := by
  have agreed : Agreed b m.snapshot := same.snapshot ▸ realizes.snapshot
  have whole : m.Whole := ⟨agreed.folded, agreed.ordered, wf.contiguous⟩
  have inside : n.commitIndex ≤ n.fullLog.length := by
    rw [← realizes.whole.lastIndex]
    exact realizes.wf.committed
  have kept : n.commitIndex ≤ (b.aligned req.term index n.fullLog).length := by
    rw [← aligned, ← whole.lastIndex, ← same.commit]
    exact wf.committed
  have chosen := realizes.committed
  rw [realizes.term, current] at chosen
  have committed : Consensus.Chosen b n.currentTerm (m.fullLog.take m.commitIndex) := by
    rw [aligned, same.commit, current]
    exact aligned_chosen reach.inv follows.led chosen inside kept
  rcases realizes.accept (.refl reach.inv) role (current ▸ follows.led) (current ▸ bound) wf agreed
    same.term same.voted same.role (current ▸ aligned) committed
      (same.pending ▸ realizes.pending) with
    ⟨c, further, accepted, acked⟩
  rw [current] at acked
  refine ⟨c, reach.trans further, accepted, acked, follows.mono further.acts.grows, ?_⟩
  rw [further.acts.grows.take bound, aligned]
  exact Consensus.aligned_holds req.term index n.fullLog

theorem Realizes.commitTo (realizes : n.Realizes a setting.codec v) (follows : req.Follows a)
    (current : n.currentTerm = req.term) {index reached : Nat} (later : n.commitIndex < index)
    (held : (a.leaderLog req.term).take reached <+: n.fullLog)
    (bound : reached ≤ (a.leaderLog req.term).length) (limit : index ≤ req.leaderCommit)
    (inside : index ≤ reached) :
    Realizes { n with commitIndex := index } a setting.codec v := by
  have length := held.length_le
  rw [List.length_take_of_le bound] at length
  have fits : index ≤ n.lastIndexLocked := by
    rw [realizes.whole.lastIndex]
    omega
  have wf : WellFormed { n with commitIndex := index } :=
    ⟨realizes.wf.contiguous, realizes.wf.compacted, realizes.wf.applied.trans later.le, fits⟩
  refine { realizes with
    wf := wf
    committed := ?_
    leads := fun leader => (realizes.leads leader).congr rfl later.le rfl rfl rfl }
  have part : n.fullLog.take index = (a.leaderLog req.term).take index := by
    rcases held with ⟨rest, whole⟩
    rw [← whole, List.take_append_of_le_length (by rw [List.length_take_of_le bound]; exact inside),
      List.take_take, min_eq_left inside]
  have same : fullLog { n with commitIndex := index } = n.fullLog := rfl
  rw [same, part, realizes.term, current]
  exact follows.commit.initial (List.take_isPrefix_take.mpr (Or.inl limit))

end Node

end GoRaftKV.Raft
