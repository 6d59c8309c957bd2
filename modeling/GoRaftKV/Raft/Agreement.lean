import GoRaftKV.Raft.MatchIndex

/-! One log for all nodes and all times: what is committed, applied and compacted anywhere. -/

namespace GoRaftKV.Raft

open Storage Library Program

/-- The committed entries that are still in the node's log are those of `log`. -/
structure Node.CommitsIn (n : Node) (log : List LogEntry) : Prop where
  bound : n.commitIndex ≤ log.length
  entries : ∀ index, n.snapshot.lastIncludedIndex < index → index ≤ n.commitIndex →
    n.entryAtLocked index = log[index - 1]?

/-- The state machine and the snapshot are folds of `log`, and no iteration of `applyReady` is
turned back by its re-check. -/
structure Proc.FoldsOf (p : Proc) (log : List LogEntry) : Prop where
  committed : p.node.CommitsIn log
  applied : p.applyMu = .free → p.node.sm = KVStateMachine.replay ∅ (log.take p.node.lastApplied)
  snapshot : KVStateMachine.restore p.node.snapshot.data =
    KVStateMachine.replay ∅ (log.take p.node.snapshot.lastIncludedIndex)
  rechecked : ∀ entry result, p.applyMu = .applied entry result → p.node.stillApplies entry = true

section Folds

variable {setting : Setting} {a b : Ideal} {v : NodeId} {disk : Disk} {p : Proc}
  {log : List LogEntry}

theorem Agreed.restored {snapshot : Snapshot} (agreed : Agreed a snapshot) :
    KVStateMachine.restore snapshot.data = KVStateMachine.replay ∅ snapshot.history := by
  have restored := restore_foldOf snapshot.history
  rw [← agreed.folded] at restored
  exact restored

theorem Proc.Realizes.foldsOf (realizes : p.Realizes a setting v disk)
    (committed : p.node.fullLog.take p.node.commitIndex <+: log) : p.FoldsOf log := by
  have compacted := realizes.node.wf.compacted
  have applied := realizes.node.wf.applied
  have inside := realizes.node.wf.committed
  rw [realizes.node.whole.lastIndex] at inside
  have front {index : Nat} (bound : index ≤ p.node.commitIndex) : p.node.fullLog.take index =
      log.take index := by
    rcases committed with ⟨rest, rfl⟩
    rw [List.take_append_of_le_length (by rw [List.length_take_of_le inside]; exact bound),
      List.take_take, min_eq_left bound]
  refine ⟨⟨?_, ?_⟩, ?_, ?_, ?_⟩
  · have length := committed.length_le
    rw [List.length_take_of_le inside] at length
    exact length
  · intro index after bound
    have same := congrArg (fun part => part[index - 1]?) (front bound)
    simp only [List.getElem?_take_of_lt (show index - 1 < index by omega)] at same
    rw [realizes.node.whole.entryAt after, same]
  · intro free
    have accounts := realizes.accounts
    rw [free] at accounts
    rw [accounts.folded, accounts.history, front applied]
    exact congrArg _ (List.append_nil _)
  · rw [realizes.node.snapshot.restored, ← realizes.node.whole.take_compacted,
      front (compacted.trans applied)]
  · intro entry result held
    have accounts := realizes.accounts
    rw [held] at accounts
    exact (accounts.stillApplies realizes.node).2

end Folds

section Matching

variable {setting : Setting} {a b : Ideal} {u v : NodeId} {n m : Node} {entry another : LogEntry}

theorem Node.Realizes.termOf (realizes : n.Realizes a setting.codec v) (member : entry ∈ n.log) :
    n.fullLog[entry.index - 1]? = some entry ∧ termOfIndex n.fullLog entry.index = some entry.term ∧
      n.snapshot.lastIncludedIndex < entry.index := by
  have found := realizes.whole.numbered.position (List.mem_append_right n.snapshot.history member)
  rw [Nat.sub_zero] at found
  refine ⟨found, ?_, (realizes.wf.contiguous.mem member).1⟩
  rw [termOfIndex, found]
  rfl

theorem Node.Realizes.boundary (realizes : n.Realizes a setting.codec v)
    (positive : 0 < n.snapshot.lastIncludedIndex) :
    termOfIndex n.fullLog n.snapshot.lastIncludedIndex = some n.snapshot.lastIncludedTerm := by
  rw [← realizes.whole.termAt positive le_rfl, Node.termAtLocked, if_neg positive.ne', if_pos rfl]

theorem Node.Realizes.agreeUpTo (early : n.Realizes a setting.codec v)
    (late : m.Realizes b setting.codec u) (grows : Consensus.Extends a b)
    (first : Consensus.Inv LogEntry.term setting.Quorum a)
    (second : Consensus.Inv LogEntry.term setting.Quorum b) {index term : Nat}
    (positive : 0 < index) (here : termOfIndex n.fullLog index = some term)
    (there : termOfIndex m.fullLog index = some term) :
    n.fullLog.take index = m.fullLog.take index := by
  have left := (first.logGrounded v).mono grows
  have right := second.logGrounded u
  rw [early.log] at left
  rw [late.log] at right
  exact Node.agree_upTo left right positive here there

theorem Node.Realizes.snapshotFold (realizes : n.Realizes a setting.codec v) {log : List LogEntry}
    (same : n.fullLog.take n.snapshot.lastIncludedIndex = log.take n.snapshot.lastIncludedIndex) :
    KVStateMachine.restore n.snapshot.data =
      KVStateMachine.replay ∅ (log.take n.snapshot.lastIncludedIndex) := by
  rw [realizes.snapshot.restored, ← realizes.whole.take_compacted, same]

end Matching

namespace Cluster

variable {setting : Setting} {first second w : Cluster} {id other : NodeId} {p q : Proc}

theorem member_of_live {allowed : Cluster → Event → Prop} (run : Run setting allowed initial w)
    (live : (w.hosts id).proc = some p) : id ∈ setting.members := by
  induction run generalizing p with
  | refl => cases live
  | tail _ step ih =>
      rcases step with ⟨event, next, -, taken⟩
      rcases step_host taken id with same | ⟨task, -, rfl, member, -⟩
      · rw [same] at live
        exact ih live
      · exact member

theorem Realizes.proc {a : Ideal} (realizes : w.Realizes setting a)
    (live : (w.hosts id).proc = some p) :
    p.Realizes a setting id (w.hosts id).disk := by
  have host := realizes.hosts id
  simp only [Host.Realizes, live] at host
  exact host

theorem Realizes.committedLog {a : Ideal} (run : Run setting Reliable initial w)
    (realizes : w.Realizes setting a) :
    ∃ log, Contiguous 0 log ∧ (∃ bound, Consensus.Chosen a bound log) ∧ ∀ id p,
      (w.hosts id).proc = some p → p.node.fullLog.take p.node.commitIndex <+: log := by
  have meet := fun first second => @Setting.Quorum.meet setting first second
  let own (id : NodeId) : List LogEntry :=
    (w.hosts id).proc.elim [] fun p => p.node.fullLog.take p.node.commitIndex
  have sound (id : NodeId) : Contiguous 0 (own id) ∧ ∃ bound,
      Consensus.Chosen a bound (own id) := by
    simp only [own]
    cases live : (w.hosts id).proc with
    | none => exact ⟨contiguous_nil 0, 0, Or.inl rfl⟩
    | some p =>
        exact ⟨(realizes.proc live).node.whole.numbered.take _, _,
        (realizes.proc live).node.committed⟩
  rcases realizes.inv.chosenUpper meet setting.members fun id _ => (sound id).2 with
    ⟨log, source, inside⟩
  have longest : Contiguous 0 log ∧ ∃ bound, Consensus.Chosen a bound log := by
    rcases source with rfl | ⟨id, -, rfl⟩
    · exact ⟨contiguous_nil 0, 0, Or.inl rfl⟩
    · exact sound id
  refine ⟨log, longest.1, longest.2, fun id p live => ?_⟩
  have part := inside id (member_of_live run live)
  simp only [own, live] at part
  exact part

/-- At any two times of a run, every state machine and every snapshot is a fold of one and the same
log, whose entries are the committed entries of every node. -/
theorem applied_exactly_once (before : Run setting Reliable initial first)
    (after : Run setting Reliable first second) :
    ∃ log, Contiguous 0 log ∧ (∀ id p, (first.hosts id).proc = some p → p.FoldsOf log) ∧
      ∀ id p, (second.hosts id).proc = some p → p.FoldsOf log := by
  have meet := fun first second => @Setting.Quorum.meet setting first second
  rcases realizes_of_run before with ⟨a, early⟩
  rcases early.run after with ⟨b, grows, late⟩
  rcases early.committedLog before with ⟨old, oldOrder, ⟨bound, chosen⟩, committed⟩
  rcases late.committedLog (before.trans after) with ⟨new, newOrder, ⟨limit, decided⟩, more⟩
  rcases late.inv.chosenLinear meet (chosen.mono grows le_rfl) decided with shorter | longer
  · refine ⟨new, newOrder, fun id p live => ?_, fun id p live => ?_⟩
    · exact (early.proc live).foldsOf ((committed id p live).trans shorter)
    · exact (late.proc live).foldsOf (more id p live)
  · refine ⟨old, oldOrder, fun id p live => ?_, fun id p live => ?_⟩
    · exact (early.proc live).foldsOf (committed id p live)
    · exact (late.proc live).foldsOf ((more id p live).trans longer)

def hasApplied (count : Nat) (p : Proc) : Bool := p.applyMu = .free ∧ p.node.lastApplied = count

/-- `a`, which has applied nothing yet, is brought up to date by a snapshot of `c`. -/
theorem applied_exactly_once_installed :
    ∃ first second log p, Run trioSetting Reliable initial first ∧
      Run trioSetting Reliable first second ∧ Contiguous 0 log ∧
    (second.hosts "a").proc = some p ∧ p.node.lastApplied = 3 ∧
      p.node.sm = KVStateMachine.replay ∅ (log.take 3) := by
  have played : (play trioSetting Reliable initial (accepting ++ committing)).any (fun first =>
      (play trioSetting Reliable first (compacting ++ installing)).any fun second =>
        second.holdsAt "a" (hasApplied 3)) = true := by decide +kernel
  rcases play_any played with ⟨first, before, checked⟩
  rcases play_any checked with ⟨second, after, later⟩
  rcases holdsAt_proc later with ⟨p, live, applied⟩
  simp only [hasApplied, decide_eq_true_eq] at applied
  rcases applied_exactly_once before after with ⟨log, ordered, -, folds⟩
  have folded := (folds "a" p live).applied applied.1
  rw [applied.2] at folded
  exact ⟨first, second, log, p, before, after, ordered, live, applied.2, folded⟩

theorem Realizes.appliedLog {a : Ideal} (realizes : w.Realizes setting a)
    (live : (w.hosts id).proc = some p) :
    Contiguous 0 p.node.history ∧ ∃ bound, Consensus.Chosen a bound p.node.history := by
  have node := (realizes.proc live).node
  have accounts := (realizes.proc live).accounts
  have part : p.node.history <+: p.node.fullLog.take p.node.commitIndex := by
    rw [accounts.history]
    cases held : p.applyMu with
    | applied entry result =>
        rcases accounts.next entry (by rw [held]; rfl) with ⟨pending, found⟩
        have more : p.node.fullLog.take p.node.lastApplied ++ [entry] =
            p.node.fullLog.take (p.node.lastApplied + 1) := by
          rw [List.take_add_one, found]
          rfl
        exact more ▸ List.take_isPrefix_take.mpr (Or.inl pending)
    | free =>
        exact (List.append_nil _).symm ▸ List.take_isPrefix_take.mpr (Or.inl node.wf.applied)
    | applying entry =>
        exact (List.append_nil _).symm ▸ List.take_isPrefix_take.mpr (Or.inl node.wf.applied)
  exact ⟨(node.whole.numbered.take _).initial part, _, node.committed.initial part⟩

/-- An entry that two nodes have applied at one index, at whatever times, is the same entry. -/
theorem applied_agree (before : Run setting Reliable initial first)
    (after : Run setting Reliable first second) (live : (first.hosts id).proc = some p)
    (alive : (second.hosts other).proc = some q) {entry another : LogEntry}
    (here : entry ∈ p.node.history) (there : another ∈ q.node.history)
    (same : entry.index = another.index) :
    entry = another := by
  have meet := fun first second => @Setting.Quorum.meet setting first second
  rcases realizes_of_run before with ⟨a, early⟩
  rcases early.run after with ⟨b, grows, late⟩
  rcases early.appliedLog live with ⟨numbered, bound, chosen⟩
  rcases late.appliedLog alive with ⟨placed, limit, decided⟩
  have one := numbered.position here
  have two := placed.position there
  rw [same] at one
  rcases late.inv.chosenLinear meet (chosen.mono grows le_rfl) decided with
    ⟨rest, whole⟩ | ⟨rest, whole⟩
  · rw [← whole, List.getElem?_append_left (List.getElem?_eq_some_iff.mp one).1, one] at two
    exact Option.some.inj two
  · rw [← whole, List.getElem?_append_left (List.getElem?_eq_some_iff.mp two).1, two] at one
    exact (Option.some.inj one).symm

def firstPut : LogEntry :=
  { index := 2, term := 1, command := { op := .put, key := "k", value := "v" } }

/-- The leader of term 1 and the leader of term 2 apply the same second entry. -/
theorem applied_agree_successor : ∃ first second p q, Run trioSetting Reliable initial first ∧
    Run trioSetting Reliable first second ∧ (first.hosts "a").proc = some p ∧
      (second.hosts "c").proc = some q ∧
    firstPut ∈ p.node.history ∧ firstPut ∈ q.node.history ∧ firstPut = firstPut := by
  have played : (play trioSetting Reliable initial (accepting ++ committing ++ applying "a" ++
      applying "a")).any
        (fun first => first.holdsAt "a" (fun p => decide (firstPut ∈ p.node.history)) &&
          (play trioSetting Reliable first compacting).any fun second =>
          second.holdsAt "c" fun q => decide (firstPut ∈ q.node.history)) =
            true := by decide +kernel
  rcases play_any played with ⟨first, before, checked⟩
  simp only [Bool.and_eq_true] at checked
  rcases play_any checked.2 with ⟨second, after, later⟩
  rcases holdsAt_proc checked.1 with ⟨p, live, here⟩
  rcases holdsAt_proc later with ⟨q, alive, there⟩
  simp only [decide_eq_true_eq] at here there
  exact ⟨first, second, p, q, before, after, live, alive, here, there,
    applied_agree before after live alive here there rfl⟩

/-- What a node has committed in its term, every leader of a later term holds. -/
theorem leader_completeness (before : Run setting Reliable initial first)
    (after : Run setting Reliable first second) (live : (first.hosts id).proc = some p)
    (alive : (second.hosts other).proc = some q) (leads : q.node.role = .leader)
    (later : p.node.currentTerm < q.node.currentTerm) {index : Nat} (positive : 0 < index)
    (committed : index ≤ p.node.commitIndex) :
    ∃ entry, p.node.HasEntry index entry ∧ q.node.HasEntry index entry := by
  have meet := fun first second => @Setting.Quorum.meet setting first second
  rcases realizes_of_run before with ⟨a, early⟩
  rcases early.run after with ⟨b, grows, late⟩
  have node := (early.proc live).node
  have leader := (late.proc alive).node
  rcases leader.leaderLog late.inv leads with ⟨led, log⟩
  have inside := node.wf.committed
  rw [node.whole.lastIndex] at inside
  have chosen : Consensus.Chosen b q.node.currentTerm (p.node.fullLog.take p.node.commitIndex) :=
    node.committed.mono grows (node.term.trans_le later.le)
  have held := late.inv.chosenPrefix meet chosen led
  rw [log] at held
  have place : index - 1 < p.node.fullLog.length := by omega
  have found := List.getElem?_eq_getElem place
  refine ⟨_, node.keeps positive found, leader.keeps positive ?_⟩
  rcases held with ⟨rest, whole⟩
  rw [← whole, List.getElem?_append_left (by rw [List.length_take_of_le inside]; omega),
    List.getElem?_take_of_lt (by omega)]
  exact found

def hasCommitted (index : Nat) (p : Proc) : Bool :=
  p.node.role = .leader ∧ p.node.currentTerm = 1 ∧ index ≤ p.node.commitIndex

theorem leader_completeness_successor : ∃ first second p q, Run trioSetting Reliable initial first ∧
    Run trioSetting Reliable first second ∧ (first.hosts "a").proc = some p ∧
      p.node.role = .leader ∧
    (second.hosts "c").proc = some q ∧ q.node.role = .leader ∧
      p.node.currentTerm < q.node.currentTerm ∧
    2 ≤ p.node.commitIndex ∧ ∃ entry, p.node.HasEntry 2 entry ∧ q.node.HasEntry 2 entry := by
  have played : (play trioSetting Reliable initial (accepting ++ committing)).any
      (fun first => first.holdsAt "a" (hasCommitted 2) &&
        (play trioSetting Reliable first compacting).any fun second =>
        second.holdsAt "c" (leadsTerm 2)) = true := by
    decide +kernel
  rcases play_any played with ⟨first, before, checked⟩
  simp only [Bool.and_eq_true] at checked
  rcases play_any checked.2 with ⟨second, after, later⟩
  rcases holdsAt_proc checked.1 with ⟨p, live, committed⟩
  rcases holdsAt_proc later with ⟨q, alive, leads⟩
  simp only [hasCommitted, decide_eq_true_eq] at committed
  simp only [leadsTerm, decide_eq_true_eq] at leads
  have newer : p.node.currentTerm < q.node.currentTerm := by
    rw [committed.2.1, leads.2]
    decide
  exact ⟨first, second, p, q, before, after, live, committed.1, alive, leads.1, newer,
    committed.2.2, leader_completeness before after live alive leads.1 newer (by decide)
      committed.2.2⟩

/-- Live entries of one index and term are the same and have the same live entries below them, and a
snapshot whose boundary is a live entry elsewhere is the fold of the log up to that entry. -/
theorem log_matching (before : Run setting Reliable initial first)
    (after : Run setting Reliable first second) (live : (first.hosts id).proc = some p)
    (alive : (second.hosts other).proc = some q) :
    (∀ entry ∈ p.node.log, ∀ another ∈ q.node.log, entry.index = another.index →
      entry.term = another.term → entry = another ∧ ∀ lower ∈ p.node.log, ∀ below ∈ q.node.log,
        lower.index = below.index → lower.index ≤ entry.index → lower = below) ∧
    (∀ another ∈ q.node.log, another.index = p.node.snapshot.lastIncludedIndex →
      another.term = p.node.snapshot.lastIncludedTerm →
      KVStateMachine.restore p.node.snapshot.data =
        KVStateMachine.replay ∅ (q.node.fullLog.take another.index)) ∧
    (∀ entry ∈ p.node.log, entry.index = q.node.snapshot.lastIncludedIndex →
      entry.term = q.node.snapshot.lastIncludedTerm →
      KVStateMachine.restore q.node.snapshot.data =
        KVStateMachine.replay ∅ (p.node.fullLog.take entry.index)) := by
  rcases realizes_of_run before with ⟨a, early⟩
  rcases early.run after with ⟨b, grows, late⟩
  have node := (early.proc live).node
  have other := (late.proc alive).node
  refine ⟨?_, ?_, ?_⟩
  · intro entry here another there index term
    rcases node.termOf here with ⟨found, one, above⟩
    rcases other.termOf there with ⟨met, two, -⟩
    rw [← index, ← term] at two
    have agree := node.agreeUpTo other grows early.inv late.inv (by omega) one two
    have equal {lower below : LogEntry} (member : lower ∈ p.node.log)
        (counterpart : below ∈ q.node.log) (same : lower.index = below.index)
        (bound : lower.index ≤ entry.index) : lower = below := by
      rcases node.termOf member with ⟨left, -, inside⟩
      have right := (other.termOf counterpart).1
      have part := congrArg (fun log => log[lower.index - 1]?) agree
      simp only [List.getElem?_take_of_lt (show lower.index - 1 < entry.index by omega)] at part
      rw [left, same, right] at part
      exact Option.some.inj part
    exact ⟨equal here there index le_rfl, fun lower member below counterpart same bound =>
      equal member counterpart same bound⟩
  · intro another there index term
    rcases other.termOf there with ⟨-, two, above⟩
    have positive : 0 < p.node.snapshot.lastIncludedIndex := by omega
    rw [index, term] at two
    rw [index]
    exact node.snapshotFold (node.agreeUpTo other grows early.inv late.inv positive
      (node.boundary positive) two)
  · intro entry here index term
    rcases node.termOf here with ⟨-, one, above⟩
    have positive : 0 < q.node.snapshot.lastIncludedIndex := by omega
    rw [index, term] at one
    rw [index]
    exact other.snapshotFold
      (node.agreeUpTo other grows early.inv late.inv positive one (other.boundary positive)).symm

def secondNoop : LogEntry := { index := 3, term := 2, command := { op := .noop } }

def compactedTo (index term : Nat) (p : Proc) : Bool :=
  p.node.snapshot.lastIncludedIndex = index ∧ p.node.snapshot.lastIncludedTerm = term

/-- The boundary of the snapshot of `c` is a live entry of `b`. -/
theorem log_matching_boundary :
    ∃ w p q, Run trioSetting Reliable initial w ∧ (w.hosts "b").proc = some p ∧
      (w.hosts "c").proc = some q ∧ secondNoop ∈ p.node.log ∧
      q.node.snapshot.lastIncludedIndex = 3 ∧
    KVStateMachine.restore q.node.snapshot.data =
      KVStateMachine.replay ∅ (p.node.fullLog.take 3) := by
  have played : (play trioSetting Reliable initial (accepting ++ committing ++ compacting)).any
      (fun w => w.holdsAt "b" (fun p => decide (secondNoop ∈ p.node.log)) && w.holdsAt "c"
        (compactedTo 3 2)) = true := by
    decide +kernel
  rcases play_any played with ⟨w, run, checked⟩
  simp only [Bool.and_eq_true] at checked
  rcases holdsAt_proc checked.1 with ⟨p, live, here⟩
  rcases holdsAt_proc checked.2 with ⟨q, alive, boundary⟩
  simp only [decide_eq_true_eq] at here
  simp only [compactedTo, decide_eq_true_eq] at boundary
  have folded := (log_matching run .refl live alive).2.2 secondNoop here boundary.1.symm
    boundary.2.symm
  exact ⟨w, p, q, run, live, alive, here, boundary.1, folded⟩

end Cluster

end GoRaftKV.Raft
