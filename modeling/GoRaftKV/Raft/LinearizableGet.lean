import GoRaftKV.Raft.ReadBarrier

/-! `LinearizableGet` over whole runs. Whatever is chosen when a read is invoked was chosen by a
leader of at most the confirmed term, so it is within the index that the read waits for. -/

namespace GoRaftKV.Raft

open Storage Library Program

def Decided (a : Ideal) (entry : LogEntry) : Prop :=
  ∃ bound log, Consensus.Chosen a bound log ∧ entry ∈ log

theorem Decided.mono {a b : Ideal} {entry : LogEntry} (decided : Decided a entry)
    (grows : Consensus.Extends a b) :
    Decided b entry := by
  rcases decided with ⟨bound, log, chosen, member⟩
  exact ⟨bound, log, chosen.mono grows le_rfl, member⟩

/-- A quorum has not gone beyond `term`. -/
def Confirms (setting : Setting) (a : Ideal) (term : Nat) : Prop :=
  ∃ voters, setting.Quorum voters ∧ ∀ v ∈ voters, a.term v ≤ term

/-- Everything that is chosen is within the first `index` entries. -/
def Covers (a : Ideal) (index : Nat) : Prop :=
  ∀ bound log, Consensus.Chosen a bound log → log.length ≤ index

/-- The index that the leader of the confirmed term waits for covers all that was chosen at
`start`. -/
theorem Confirms.covers {setting : Setting} {start now : Ideal} {n : Node} {v : NodeId}
    (confirms : Confirms setting start n.currentTerm) (grows : Consensus.Extends start now)
    (before : Consensus.Inv LogEntry.term setting.Quorum start)
    (after : Consensus.Inv LogEntry.term setting.Quorum now)
    (realizes : n.Realizes now setting.codec v) (leads : n.role = .leader) :
    Covers start (max n.commitIndex n.leaderNoopIndex) := by
  have meet := fun first second => @Setting.Quorum.meet setting first second
  rcases confirms with ⟨voters, quorum, behind⟩
  rcases (realizes.leads leads).noop with ⟨won, elected, -, noop⟩
  intro bound log chosen
  have within : Consensus.Chosen now n.currentTerm log :=
    (before.chosenWithin meet quorum behind chosen).mono grows le_rfl
  calc
    log.length ≤ max (now.decided n.currentTerm) won.log.length :=
      after.chosenLength meet elected within
    _ ≤ max n.commitIndex n.leaderNoopIndex := max_le_max (realizes.leads leads).decided noop.le

/-- What a read knows about the protocol at the time of its invocation. -/
def Read.Knows (read : Read) (setting : Setting) (past : Nat → Ideal) (proc : Option Proc) : Prop :=
  match read.stage with
  | .begun => True
  | .barrier term since acked =>
      read.invoked ≤ since ∧ acked ⊆ (setting.config read.node).peerAddrs ∧
        ∀ v ∈ insert read.node acked, (past read.invoked).term v ≤ term
  | .confirmed term => Confirms setting (past read.invoked) term
  | .waiting _ index => Covers (past read.invoked) index
  | .applied _ =>
      ∃ index, Covers (past read.invoked) index ∧ ∃ p, proc = some p ∧ index ≤ p.node.lastApplied
  | .returned _ => True

theorem Read.Knows.later {read : Read} {setting : Setting} {past : Nat → Ideal}
    {before after : Option Proc} (knows : read.Knows setting past before)
    (later : ∀ p, before = some p → ∃ q, after = some q ∧ p.node.lastApplied ≤ q.node.lastApplied) :
    read.Knows setting past after := by
  -- What a read knows does not depend on what its process does, as long as nothing applied is
  -- taken back.
  rcases read with ⟨node, key, invoked, stage⟩
  cases stage with
  | applied term =>
      rcases knows with ⟨index, covers, p, live, passed⟩
      rcases later p live with ⟨q, alive, more⟩
      exact ⟨index, covers, q, alive, passed.trans more⟩
  | _ => exact knows

theorem Read.advance_returned {read : Read} {cfg : Config} {n : Node} {clock : Nat}
    {value : String × Bool} (moved : read.advance cfg n clock = some (.returned value)) :
    (∃ term, read.stage = .applied term) ∧ value = KVStateMachine.get n.sm read.key := by
  unfold Read.advance at moved
  split at moved
  · cases moved
  split at moved
  case h_1 | h_6 => cases moved
  case h_5 term stage =>
    split at moved
    · cases moved
      exact ⟨⟨term, stage⟩, rfl⟩
    · cases moved
  all_goals split at moved <;> cases moved

/-- What is known about a `LinearizableGet` that has returned. -/
structure Get.Knows (get : Get) (past : Nat → Ideal) : Prop where
  ordered : get.invoked ≤ get.finished
  chosen : ∃ bound, Consensus.Chosen (past get.finished) bound get.history
  value : get.value = KVStateMachine.get (KVStateMachine.replay ∅ get.history) get.key
  covers : ∀ bound log, Consensus.Chosen (past get.invoked) bound log → log <+: get.history

def Proposal.Of (proposal : Proposal) (answer : Answer) : Prop :=
  proposal.node = answer.node ∧ proposal.chan = answer.chan

namespace Cluster

variable {setting : Setting} {w next : Cluster} {event : Event} {task : Task}

theorem Sound.upholds (sound : w.Sound) (asked : w.Asked setting task) {p q : Proc}
    (live : (w.hosts task.node).proc = some p) (alive : (w.outcome setting task).1.proc = some q) :
    p.node.Upholds q.node := by
  have wf := sound.wellFormed task.node p live
  unfold outcome Host.step at alive
  rw [live] at alive
  exact (Host.step_move live wf (fun req action => sound.spliceSafe asked p.node action)
    alive).upholds wf

theorem serve_reads {read : Read} (member : read ∈ (w.serve setting task).reads) :
    read ∈ w.reads ∧ (read.node = task.node → (w.outcome setting task).1.proc.isSome) := by
  have same : (w.serve setting task).reads = _ := (record_reads (w.outcome setting task).2).1
  rw [same] at member
  simp only [settle] at member
  split at member
  · rcases List.mem_filter.mp member with ⟨old, elsewhere⟩
    exact ⟨old, fun own => absurd own (of_decide_eq_true elsewhere)⟩
  · rename_i up
    exact ⟨member, fun _ => Option.isSome_iff_ne_none.mpr fun down => up (by rw [down]; rfl)⟩

theorem step_answer_time (taken : w.step setting event = some next) {answer : Answer}
    (member : answer ∈ next.answers) (fresh : answer ∉ w.answers) : answer.time = w.clock := by
  have told {id : NodeId} {chan : ChanId} {result : ApplyResult × Option NodeError}
      (member : answer ∈ (w.answered id chan result).answers) : answer.time = w.clock := by
    rcases List.mem_append.mp member with old | new
    · exact absurd old fresh
    · rw [List.mem_singleton.mp new]
  rcases step_cases taken with ⟨task, -, -, rfl⟩ | ⟨mid, handled, rfl⟩
  · change answer ∈ (record _ setting task (w.outcome setting task).2).answers at member
    unfold record at member
    split at member
    case h_6 | h_7 | h_8 => exact told member
    case h_13 | h_14 => split at member <;> exact absurd member fresh
    all_goals exact absurd member fresh
  · cases client_cases handled with
    | answer => exact told member
    | _ => exact absurd member fresh

/-- What the reads in progress, the reads that have returned and the answers say about the past. -/
structure Reads (w : Cluster) (setting : Setting) (past : Nat → Ideal) : Prop where
  reads : ∀ read ∈ w.reads, read.invoked ≤ w.clock ∧
    read.Knows setting past (w.hosts read.node).proc
  gets : ∀ get ∈ w.gets, get.finished ≤ w.clock ∧ get.Knows past
  answers : ∀ answer ∈ w.answers, answer.error = none →
    ∃ proposal ∈ w.proposals, proposal.Of answer ∧ Decided (past answer.time) proposal.entry

namespace Chronicle

variable (chronicle : Chronicle setting) {time : Nat} {id : NodeId} {p : Proc}

theorem applies_decided (bound : time ≤ chronicle.length)
    (live : ((chronicle.states time).hosts id).proc = some p) {done : LogEntry × ApplyResult}
    (member : done ∈ p.node.applies) : Decided (chronicle.ideals time) done.1 := by
  induction time generalizing id p with
  | zero =>
      rw [chronicle.begun] at live
      cases live
  | succ time ih =>
      rcases chronicle.stepped bound with ⟨event, taken⟩
      have before := Nat.le_of_succ_le bound
      have grows := chronicle.grown time bound
      rcases step_host taken id with same | ⟨task, ran, rfl, -, stepped⟩
      · rw [same] at live
        exact (ih before live member).mono grows
      · rw [stepped] at live
        have sound := sound_of_run (chronicle.reached before)
        rcases sound.origin (server_asked ran) live with ⟨q, lived, move⟩ | ⟨loaded, -, rfl, -⟩
        · rcases move.applies with same | ⟨entry, result, applying, more⟩
          · rw [same] at member
            exact (ih before lived member).mono grows
          · rw [more] at member
            rcases List.mem_append.mp member with old | new
            · exact (ih before lived old).mono grows
            · have realizes := (chronicle.realized time before).proc lived
              rcases realizes.accounts.next entry (by rw [applying]; rfl) with ⟨pending, found⟩
              have committed : entry ∈ q.node.fullLog.take q.node.commitIndex := by
                apply List.mem_of_getElem?
                rw [List.getElem?_take_of_lt pending]
                exact found
              rw [List.mem_singleton.mp new]
              exact Decided.mono ⟨_, _, realizes.node.committed, committed⟩ grows
        · cases member

theorem advance_knows (bound : time ≤ chronicle.length) {read : Read} {stage : ReadStage}
    (invoked : read.invoked ≤ time) (knows : read.Knows setting chronicle.ideals (some p))
    (live : ((chronicle.states time).hosts read.node).proc = some p)
    (moved : read.advance (setting.config read.node) p.node time = some stage) :
    Read.Knows { read with stage := stage } setting chronicle.ideals (some p) := by
  have term := chronicle.term_of_live bound live
  have grows := chronicle.extended invoked bound
  have realizes := chronicle.realized time bound
  rcases read with ⟨node, key, started, current⟩
  have serving : ¬ (p.node.stopped = true ∨ p.node.role ≠ .leader) := by
    intro refused
    simp only [Read.advance, if_pos refused] at moved
    cases moved
  simp only [Read.advance, if_neg serving] at moved
  push Not at serving
  cases current with
  | begun =>
      cases moved
      refine ⟨invoked, Finset.empty_subset _, ?_⟩
      intro v own
      rw [insert_empty_eq, Finset.mem_singleton] at own
      rw [own, ← term]
      exact grows.term node
  | barrier term since acked =>
      simp only at moved
      split at moved
      · rename_i enough
        cases moved
        have member := member_of_live (chronicle.reached bound) live
        exact ⟨insert node acked, Setting.quorum_counted member knows.2.1 enough.1, knows.2.2⟩
      · cases moved
  | confirmed term =>
      simp only at moved
      split at moved
      · rename_i same
        cases moved
        subst same
        exact Confirms.covers knows grows (chronicle.realized started (invoked.trans bound)).inv
          realizes.inv (realizes.proc live).node serving.2
      · cases moved
        trivial
  | waiting term index =>
      simp only at moved
      split at moved
      · rename_i passed
        cases moved
        exact ⟨index, knows, p, rfl, passed.1⟩
      · cases moved
  | applied term =>
      simp only at moved
      split at moved <;> cases moved <;> trivial
  | returned value => cases moved

theorem ack_knows (bound : time ≤ chronicle.length) {number : Nat} {read : Read} {call : Call}
    {term since : Nat} {acked : Finset NodeId} (stage : read.stage = .barrier term since acked)
    (knows : read.Knows setting chronicle.ideals (some p))
    (live : ((chronicle.states time).hosts read.node).proc = some p)
    (made : (chronicle.states time).calls[number]? = some call)
    (counted : number ∈ (chronicle.states time).acks) (own : call.sender = read.node)
    (fresh : since < call.issued) (current : p.node.currentTerm = term) :
    Read.Knows { read with stage := .barrier term since (insert call.receiver acked) } setting
      chronicle.ideals (some p) := by
  have hears := chronicle.hears bound
  simp only [Read.Knows, stage] at knows
  rcases knows with ⟨invoked, peers, behind⟩
  have peer : call.receiver ∈ (setting.config read.node).peerAddrs :=
    own ▸ hears.ledger.calls call (List.mem_of_getElem? made)
  have issued := hears.issued call (List.mem_of_getElem? made)
  rw [chronicle.clock bound] at issued
  have heard : (chronicle.ideals read.invoked).term call.receiver ≤ term := by
    rcases hears.counted number (Or.inr counted) with ⟨other, found, told⟩
    cases found.symm.trans made
    rw [chronicle.clock bound, own, chronicle.term_of_live bound live, current] at told
    have earlier : read.invoked ≤ call.issued := invoked.trans fresh.le
    exact ((chronicle.extended earlier (issued.trans bound)).term call.receiver).trans told
  refine ⟨invoked, Finset.insert_subset peer peers, ?_⟩
  intro v member
  rw [Finset.insert_comm] at member
  rcases Finset.mem_insert.mp member with rfl | before
  · exact heard
  · exact behind v before

theorem finish_knows (bound : time ≤ chronicle.length) {read : Read} {value : String × Bool}
    (invoked : read.invoked ≤ time) (knows : read.Knows setting chronicle.ideals (some p))
    (live : ((chronicle.states time).hosts read.node).proc = some p)
    (moved : read.advance (setting.config read.node) p.node time = some (.returned value)) :
    Get.Knows ⟨read.node, read.key, read.invoked, time, value, p.node.history⟩
      chronicle.ideals := by
  have meet := fun first second => @Setting.Quorum.meet setting first second
  have realizes := chronicle.realized time bound
  have accounts := (realizes.proc live).accounts
  have wf := (realizes.proc live).node.wf
  rcases (realizes.appliedLog live).2 with ⟨limit, folded⟩
  rcases Read.advance_returned moved with ⟨⟨term, stage⟩, looked⟩
  simp only [Read.Knows, stage] at knows
  rcases knows with ⟨index, covers, q, same, passed⟩
  cases same
  refine ⟨invoked, ⟨limit, folded⟩, looked.trans (by rw [accounts.folded]), ?_⟩
  intro last log chosen
  have applied : p.node.lastApplied ≤ p.node.history.length := by
    have whole := (realizes.proc live).node.whole.lastIndex
    have inside : p.node.lastApplied ≤ p.node.fullLog.length :=
      whole ▸ wf.applied.trans wf.committed
    rw [accounts.history, List.length_append, List.length_take_of_le inside]
    exact Nat.le_add_right _ _
  have shorter : log.length ≤ p.node.history.length :=
    calc
      log.length ≤ index := covers last log chosen
      _ ≤ p.node.lastApplied := passed
      _ ≤ p.node.history.length := applied
  exact realizes.inv.chosenShorter meet (chosen.mono (chronicle.extended invoked bound) le_rfl)
    folded shorter

theorem serve_knows (before : time < chronicle.length) {task : Task} {read : Read}
    (asked : (chronicle.states time).Asked setting task)
    (alive : read.node = task.node → ((chronicle.states time).outcome setting task).1.proc.isSome)
    (knows : read.Knows setting chronicle.ideals ((chronicle.states time).hosts read.node).proc) :
    read.Knows setting chronicle.ideals
      (((chronicle.states time).serve setting task).hosts read.node).proc := by
  apply knows.later
  intro p live
  rw [serve_hosts]
  by_cases own : read.node = task.node
  · rw [own, Function.update_self]
    rw [own] at live
    rcases Option.isSome_iff_exists.mp (alive own) with ⟨q, lives⟩
    have sound := sound_of_run (chronicle.reached before.le)
    exact ⟨q, lives, (sound.upholds asked live lives).applied⟩
  · rw [Function.update_of_ne own]
    exact ⟨p, live, le_rfl⟩

theorem handled_knows (before : time < chronicle.length) {mid : Cluster}
    (known : (chronicle.states time).Reads setting chronicle.ideals)
    (handled : (chronicle.states time).Handled setting mid) {read : Read}
    (member : read ∈ mid.reads) :
    read.invoked ≤ time ∧ read.Knows setting chronicle.ideals ((chronicle.states time).hosts
      read.node).proc := by
  have old {read : Read} (member : read ∈ (chronicle.states time).reads) : read.invoked ≤ time ∧
      read.Knows setting chronicle.ideals ((chronicle.states time).hosts read.node).proc := by
    have facts := known.reads read member
    rwa [chronicle.clock before.le] at facts
  cases handled with
  | get id key live =>
      rcases List.mem_append.mp member with earlier | new
      · exact old earlier
      · rw [List.mem_singleton.mp new]
        exact ⟨(chronicle.clock before.le).le, trivial⟩
  | advance number prior p stage found live moved =>
      rcases List.mem_or_eq_of_mem_set member with earlier | rfl
      · exact old earlier
      · rcases old (List.mem_of_getElem? found) with ⟨invoked, knows⟩
        rw [live] at knows
        rw [chronicle.clock before.le] at moved
        refine ⟨invoked, ?_⟩
        have now := chronicle.advance_knows before.le invoked knows live moved
        rwa [← live] at now
  | finish number prior p value found live moved => exact old (List.mem_of_mem_eraseIdx member)
  | ack number sent prior call p term since acked found stage live made counted own fresh leads
      current =>
      rcases List.mem_or_eq_of_mem_set member with earlier | rfl
      · exact old earlier
      · rcases old (List.mem_of_getElem? found) with ⟨invoked, knows⟩
        rw [live] at knows
        refine ⟨invoked, ?_⟩
        have now := chronicle.ack_knows before.le stage knows live made counted own fresh current
        rwa [← live] at now
  | giveUp number => exact old (List.mem_of_mem_eraseIdx member)
  | _ => exact old member

theorem reads_step (before : time < chronicle.length)
    (known : (chronicle.states time).Reads setting chronicle.ideals) :
    (chronicle.states (time + 1)).Reads setting chronicle.ideals := by
  rcases chronicle.stepped before with ⟨event, taken⟩
  have clock := chronicle.clock before.le
  constructor
  case reads =>
    intro read member
    rw [chronicle.clock before]
    rcases step_cases taken with ⟨task, ran, -, same⟩ | ⟨mid, handled, same⟩
    · rw [same] at member ⊢
      rcases serve_reads member with ⟨old, alive⟩
      rcases known.reads read old with ⟨invoked, knows⟩
      rw [clock] at invoked
      exact ⟨invoked.trans (Nat.le_succ time),
        chronicle.serve_knows before (server_asked ran) alive knows⟩
    · rw [same] at member ⊢
      rcases chronicle.handled_knows before known (client_cases handled) member with
        ⟨invoked, knows⟩
      rw [← client_hosts handled] at knows
      exact ⟨invoked.trans (Nat.le_succ time), knows⟩
  case gets =>
    intro get member
    rw [chronicle.clock before]
    have old (member : get ∈ (chronicle.states time).gets) : get.finished ≤ time + 1 ∧
        get.Knows chronicle.ideals := by
      rcases known.gets get member with ⟨finished, knows⟩
      rw [clock] at finished
      exact ⟨finished.trans (Nat.le_succ time), knows⟩
    rcases step_cases taken with ⟨task, ran, -, same⟩ | ⟨mid, handled, same⟩
    · rw [same] at member
      have kept : ((chronicle.states time).serve setting task).gets = _ := (record_reads _).2.1
      exact old (kept ▸ member)
    · rw [same] at member
      cases client_cases handled with
      | finish number read p value found live moved =>
          rcases List.mem_append.mp member with earlier | new
          · exact old earlier
          · rcases known.reads read (List.mem_of_getElem? found) with ⟨invoked, knows⟩
            rw [clock] at invoked moved
            rw [live] at knows
            rw [List.mem_singleton.mp new, clock]
            exact ⟨Nat.le_succ time, chronicle.finish_knows before.le invoked knows live moved⟩
      | _ => exact old member
  case answers =>
    intro answer member success
    by_cases earlier : answer ∈ (chronicle.states time).answers
    · rcases known.answers answer earlier success with ⟨proposal, made, facts⟩
      exact ⟨proposal, step_proposals taken made, facts⟩
    · have clients := clients_of_run (chronicle.reached before.le)
      rcases clients.resolved taken member earlier (Or.inl success) with
        ⟨proposal, p, made, node, chan, -, live, applied, -⟩
      refine ⟨proposal, step_proposals taken made, ⟨node, chan⟩, ?_⟩
      rw [step_answer_time taken member earlier, clock]
      exact chronicle.applies_decided before.le live applied

theorem reads (bound : time ≤ chronicle.length) :
    (chronicle.states time).Reads setting chronicle.ideals := by
  induction time with
  | zero =>
      rw [chronicle.begun]
      exact ⟨by simp [initial], by simp [initial], by simp [initial]⟩
  | succ time ih => exact chronicle.reads_step bound (ih (Nat.le_of_succ_le bound))

end Chronicle

end Cluster

/-- The answer is that of the state after `get.history`, a part of the agreed `log` that holds every
command whose `Propose` had succeeded and everything that any other `LinearizableGet` had returned
before this one was invoked. -/
structure Get.Linearized (get : Get) (w : Cluster) (log : List LogEntry) : Prop where
  agreed : get.history <+: log
  value : get.value = KVStateMachine.get (KVStateMachine.replay ∅ get.history) get.key
  writes : ∀ answer ∈ w.answers, answer.error = none → answer.time < get.invoked →
    (∃ proposal ∈ w.proposals, proposal.Of answer) ∧
      ∀ proposal ∈ w.proposals, proposal.Of answer → proposal.entry ∈ get.history
  reads : ∀ earlier ∈ w.gets, earlier.finished < get.invoked → earlier.history <+: get.history

namespace Cluster

variable {setting : Setting} {w : Cluster}

/-- In every run there is one log, chosen in a state that the cluster realizes and begun by every
log that a machine has committed, on which every `LinearizableGet` that has returned is placed in
the order of real time. -/
theorem linearizable_get (run : Run setting Reliable initial w) :
    ∃ log, (∃ a bound, w.Realizes setting a ∧ Consensus.Chosen a bound log) ∧
      (∀ id p, (w.hosts id).proc = some p → p.node.fullLog.take p.node.commitIndex <+: log) ∧
      ∀ get ∈ w.gets, get.Linearized w log := by
  have meet := fun first second => @Setting.Quorum.meet setting first second
  have clients := clients_of_run run
  rcases chronicle_of_run run with ⟨chronicle, rfl⟩
  have realizes := chronicle.realized chronicle.length le_rfl
  have known := chronicle.reads le_rfl
  have past (get : Get) (finished : get ∈ (chronicle.states chronicle.length).gets) :
      get.finished ≤ chronicle.length ∧ get.Knows chronicle.ideals := by
    have facts := known.gets get finished
    rwa [chronicle.clock le_rfl] at facts
  rcases realizes.committedLog run with ⟨committed, -, agreed, inside⟩
  have chosen : ∀ log ∈
      insert committed ((chronicle.states chronicle.length).gets.map Get.history).toFinset,
      ∃ bound, Consensus.Chosen (chronicle.ideals chronicle.length) bound log := by
    intro log member
    rcases Finset.mem_insert.mp member with rfl | returned
    · exact agreed
    · rcases List.mem_map.mp (List.mem_toFinset.mp returned) with ⟨get, finished, rfl⟩
      rcases past get finished with ⟨time, knows⟩
      rcases knows.chosen with ⟨bound, folded⟩
      exact ⟨bound, folded.mono (chronicle.extended time le_rfl) le_rfl⟩
  rcases realizes.inv.chosenUpper meet _ chosen with ⟨log, source, upper⟩
  have decided : ∃ bound, Consensus.Chosen (chronicle.ideals chronicle.length) bound log := by
    rcases source with rfl | ⟨part, member, rfl⟩
    · exact ⟨0, Or.inl rfl⟩
    · exact chosen _ member
  rcases decided with ⟨bound, decided⟩
  refine ⟨log, ⟨_, bound, realizes, decided⟩, ?_, ?_⟩
  · exact fun id p live => (inside id p live).trans (upper committed (Finset.mem_insert_self _ _))
  intro get finished
  rcases past get finished with ⟨time, knows⟩
  have begun : get.invoked ≤ chronicle.length := knows.ordered.trans time
  constructor
  case agreed =>
    apply upper get.history
    exact Finset.mem_insert_of_mem (List.mem_toFinset.mpr (List.mem_map_of_mem finished))
  case value => exact knows.value
  case writes =>
    intro answer told success earlier
    rcases known.answers answer told success with ⟨proposal, made, own, entry⟩
    rcases entry.mono (chronicle.extended earlier.le begun) with ⟨limit, part, folded, member⟩
    refine ⟨⟨proposal, made, own⟩, fun other also same => ?_⟩
    rw [clients.unique other also proposal made (same.1.trans own.1.symm) (same.2.trans own.2.symm)]
    exact (knows.covers limit part folded).subset member
  case reads =>
    intro other returned earlier
    rcases (past other returned).2.chosen with ⟨limit, folded⟩
    exact knows.covers limit other.history
      (folded.mono (chronicle.extended earlier.le begun) le_rfl)

/-- A `LinearizableGet` on `a` that `c` confirms by answering call number `call`. -/
def reading (call : Nat) : List Event :=
  [.get "a" "k", .read 0, .replicate "a" "c", .deliver call [], .reply call [], .ack 0 call,
   .read 0, .read 0, .read 0, .read 0]

def inTurn (w : Cluster) : Bool :=
  match w.answers, w.gets with
  | [answer], [first, second] =>
      answer.error = none ∧ answer.time < first.invoked ∧ first.finished < second.invoked ∧
        second.value = ("v", true)
  | _, _ => false

theorem linearizable_get_twice : ∃ w log answer first second, Run trioSetting Reliable initial w ∧
    answer ∈ w.answers ∧ answer.error = none ∧ answer.time < first.invoked ∧ first ∈ w.gets ∧
      second ∈ w.gets ∧
    first.finished < second.invoked ∧ second.value = ("v", true) ∧ first.Linearized w log ∧
      second.Linearized w log := by
  have played : (play trioSetting Reliable initial
      (accepting ++ committing ++ applying "a" ++ applying "a" ++ [.answer "a" 0] ++ reading 2 ++
        reading 3)).any
      inTurn = true := by decide +kernel
  rcases play_any played with ⟨w, run, turns⟩
  unfold inTurn at turns
  split at turns
  · rename_i answer first second answers gets
    rcases of_decide_eq_true turns with ⟨success, before, order, value⟩
    rcases linearizable_get run with ⟨log, -, -, linearized⟩
    refine ⟨w, log, answer, first, second, run, ?_, success, before, ?_, ?_, order, value,
      linearized first ?_, linearized second ?_⟩
    · simp [answers]
    all_goals simp [gets]
  · cases turns

/-- `a` leads term 1, loses it while its call to `b` is out, and leads again in term 3, where it
commits two entries with `c`. -/
def reelected : List Event :=
  [.local "a" .restart [], .local "b" .restart [], .local "c" .restart [],
   .campaign "a" [], .solicit 0 "b", .deliver 0 [], .win 0 [], .replicate "a" "b", .deliver 1 [],
   .campaign "c" [], .campaign "c" [], .solicit 2 "a", .deliver 2 [],
   .campaign "a" [], .solicit 3 "c", .deliver 3 [], .win 3 [],
   .replicate "a" "c", .deliver 4 [], .reply 4 [], .replicate "a" "c", .deliver 5 [], .reply 5 []]

/-- `c` has `Put(k, u)`; the call that takes `Put(k, v)` to `b` is still out when `a` compacts its
log, the call of term 1 returns and gives the slot of `b` to the next one, which sends the
snapshot. -/
def overlapping : List Event :=
  [.propose "a" { op := .put, key := "k", value := "u" } [], .replicate "a" "c", .deliver 6 [],
   .propose "a" { op := .put, key := "k", value := "v" } [], .replicate "a" "b", .reply 6 []] ++
  applying "a" ++ applying "a" ++ applying "a" ++ [.reply 1 [], .replicate "a" "b", .chunk 0 0]

/-- `b` accepts both entries and applies its first one, so that `a` commits `Put(k, v)` and answers
it. Then `b` takes the snapshot, whose last write fails, saves its own older one over it, and
crashes. -/
def forgetting : List Event :=
  [.deliver 7 [], .local "b" .applyNext [], .local "b" .applyEntry [], .local "b" .applyDone [],
   .reply 7 []] ++ applying "a" ++
  [.answer "a" 1, .deliver 8 [], .local "b" .installDecoded [.ok, .ok, .err 0],
   .local "b" (.persistCheck 0) [], .local "b" .persistSave [], .local "b" .crash [],
   .local "b" .restart []]

/-- `c` is elected by `b` and answers a `LinearizableGet`. -/
def succeeding : List Event :=
  [.campaign "c" [], .solicit 4 "b", .deliver 9 [], .win 4 [], .replicate "c" "b", .deliver 10 [],
   .reply 10 [], .replicate "c" "b", .deliver 11 [], .reply 11 []] ++
  applying "c" ++ applying "c" ++ applying "c" ++ applying "c" ++
  [.get "c" "k", .read 0, .replicate "c" "b", .deliver 12 [], .reply 12 [], .ack 0 12,
   .read 0, .read 0, .read 0, .read 0]

/-- No part of the log that `id` has committed both holds `entry` and explains the answer. -/
def Unexplained (w : Cluster) (get : Get) (entry : LogEntry) (id : NodeId) : Prop :=
  ∀ p ∈ (w.hosts id).proc, ∀ count ≤ p.node.commitIndex, entry ∈ p.node.fullLog.take count →
    KVStateMachine.get (KVStateMachine.replay ∅ (p.node.fullLog.take count)) get.key ≠ get.value

instance (w : Cluster) (get : Get) (entry : LogEntry) (id : NodeId) :
    Decidable (w.Unexplained get entry id) := by
  unfold Unexplained
  infer_instance

def isStale (w : Cluster) : Bool :=
  w.answers.any fun answer => w.proposals.any fun proposal => w.gets.any fun get =>
    answer.error = none ∧ (proposal.node = answer.node ∧ proposal.chan = answer.chan) ∧
      answer.time < get.invoked ∧ get.value = ("u", true) ∧ proposal.entry.command.value = "v" ∧
      ∀ id ∈ ["a", "b", "c"], w.Unexplained get proposal.entry id

/-- One failed `SaveHardState` is enough: a `Put` is answered, and a `LinearizableGet` that is
invoked later returns the value before it. -/
theorem get_stale : ∃ w answer proposal get, Run trioSetting Faulty initial w ∧
    answer ∈ w.answers ∧ answer.error = none ∧ proposal ∈ w.proposals ∧ proposal.Of answer ∧
    proposal.entry.command.value = "v" ∧ get ∈ w.gets ∧ answer.time < get.invoked ∧
      get.value = ("u", true) ∧
    ∀ id ∈ trioSetting.members, w.Unexplained get proposal.entry id := by
  have played : (play trioSetting Faulty initial
      (reelected ++ overlapping ++ forgetting ++ succeeding)).any isStale =
        true := by decide +kernel
  rcases play_any played with ⟨w, run, stale⟩
  rcases List.any_eq_true.mp stale with ⟨answer, told, rest⟩
  rcases List.any_eq_true.mp rest with ⟨proposal, made, rest⟩
  rcases List.any_eq_true.mp rest with ⟨get, returned, facts⟩
  rcases of_decide_eq_true facts with ⟨success, own, later, value, written, unexplained⟩
  refine ⟨w, answer, proposal, get, run, told, success, made, own, written, returned, later,
    value, ?_⟩
  intro id member
  exact unexplained id (by simpa [Setting.members, trioSetting] using member)

end Cluster

end GoRaftKV.Raft
