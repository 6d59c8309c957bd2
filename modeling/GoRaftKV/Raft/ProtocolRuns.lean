import GoRaftKV.Raft.Linearizability
import GoRaftKV.Raft.MatchIndex

/-! Executions as runs of the protocol, and what a majority of the machines keeps for the
clients. -/

namespace GoRaftKV.Raft

open Storage Library

/-- In every run with working disks the cluster executes the protocol: it starts in the protocol's
initial state, every event is a number of moves in which one node alone acts, and every state
realizes the protocol's. -/
theorem Execution.follows_protocol {setting : Setting}
    (execution : Execution setting Cluster.Reliable) :
    ∃ ideals : Nat → Ideal, ideals 0 = Consensus.State.initial ∧
      (∀ time ≤ execution.length, (execution.states time).Realizes setting (ideals time)) ∧
      ∀ time < execution.length, ∃ v, Consensus.Acts v (ideals time) (ideals (time + 1)) ∧
        Relation.ReflTransGen (Consensus.Step LogEntry.term setting.Quorum) (ideals time)
          (ideals (time + 1)) := by
  have simulates (w next : Cluster) (a : Ideal) (realizes : w.Realizes setting a)
      (step : Cluster.Step setting Cluster.Reliable w next) :
      ∃ b, (∃ v, Consensus.Acts v a b ∧
        Relation.ReflTransGen (Consensus.Step LogEntry.term setting.Quorum) a b) ∧
          next.Realizes setting b := by
    rcases step with ⟨event, next, reliable, taken⟩
    rcases realizes.moves taken reliable with ⟨v, b, reach, now⟩
    exact ⟨b, ⟨v, reach.acts, reach.path⟩, now⟩
  have begins : (execution.states 0).Realizes setting Consensus.State.initial := by
    rw [execution.begun]
    exact Cluster.realizes_initial
  exact Timeline.exists_along simulates begins fun time before =>
    .event _ _ (execution.admitted time before) (execution.taken time before)

/-- The files of a majority hold all of `log`. -/
def Cluster.Preserves (w : Cluster) (setting : Setting) (log : List LogEntry) : Prop :=
  ∃ voters, setting.Quorum voters ∧ ∀ v ∈ voters, ∀ index entry, 0 < index →
    log[index - 1]? = some entry → Disk.HasEntry (w.hosts v).disk index entry

theorem Setting.quorum_peers {setting : Setting} (populated : setting.peers.Nonempty) :
    setting.Quorum setting.peers := by
  have positive := populated.card_pos
  exact ⟨Finset.Subset.refl _, by omega⟩

theorem Cluster.Realizes.preserves {setting : Setting} {w : Cluster} {a : Ideal}
    (realizes : w.Realizes setting a) (populated : setting.peers.Nonempty) {log : List LogEntry}
    {limit : Nat} (chosen : Consensus.Chosen a limit log) :
    w.Preserves setting log := by
  by_cases empty : log = []
  · refine ⟨setting.peers, Setting.quorum_peers populated, fun v _ index entry _ found => ?_⟩
    rw [empty, List.getElem?_nil] at found
    cases found
  · rcases realizes.inv.chosenHeld (fun _ _ => Setting.Quorum.meet) chosen empty with
      ⟨voters, enough, held⟩
    refine ⟨voters, enough, fun v counted index entry positive found => ?_⟩
    have logged : (a.log v)[index - 1]? = some entry := by
      rcases held v counted with ⟨rest, whole⟩
      rw [← whole, List.getElem?_append_left (List.getElem?_eq_some_iff.mp found).1]
      exact found
    exact (((realizes.hosts v).keeps realizes.inv).2 index entry positive logged).1

/-- What a call has returned is what the state machine answers once the entries of `log` are folded
into it; for a write the last of them is its own. -/
def Execution.Explains {setting : Setting} {allowed : Cluster → Event → Prop}
    (execution : Execution setting allowed) (call : Nat) (log : List LogEntry) :
    ApplyResult ⊕ (String × Bool) → Prop
  | .inl result => ∃ before entry, log = before ++ [entry] ∧
      (execution.states call).Proposes (execution.events call) entry ∧
      result = (KVStateMachine.apply (KVStateMachine.replay ∅ before) entry.command).2
  | .inr value => ∃ id key, execution.events call = .get id key ∧
      value = KVStateMachine.get (KVStateMachine.replay ∅ log) key

namespace Narrative

variable {setting : Setting} (narrative : Narrative setting) {call time : Nat}

theorem explained {output : ApplyResult ⊕ (String × Bool)}
    (returned : narrative.history.returned call time output) :
    time < narrative.length ∧ setting.peers.Nonempty ∧ ∃ log limit,
      narrative.Explains call log output ∧ Consensus.Chosen (narrative.ideals time) limit log := by
  have populated {id : NodeId} {p : Proc} {moment : Nat} (bound : moment ≤ narrative.length)
      (live : ((narrative.states moment).hosts id).proc = some p) : setting.peers.Nonempty :=
    ⟨id, Setting.mem_peers (Cluster.member_of_live (narrative.run bound) live)⟩
  cases output with
  | inl result =>
      rcases narrative.write_returned returned with
        ⟨-, bound, entry, before, authors, folded, result⟩
      rcases narrative.folded_chosen folded bound.le with ⟨-, limit, chosen⟩
      rcases folded with ⟨earlier, order, id, p, live, -⟩
      exact ⟨bound, populated (order.trans bound.le) live, _, limit,
        ⟨before, entry, rfl, authors.2.1, result⟩, chosen⟩
  | inr value =>
      rcases returned with ⟨get, member, rfl, rfl, rfl⟩
      rcases narrative.get_history le_rfl member with ⟨bound, p, live, -⟩
      have knows := ((narrative.chronicle.reads le_rfl).gets get member).2
      rcases knows.chosen with ⟨limit, chosen⟩
      exact ⟨bound, populated bound.le live, get.history, limit,
        ⟨get.node, get.key, (narrative.get_event member).2, knows.value⟩, chosen⟩

end Narrative

/-- Nothing that a client has been told is lost. In every run with working disks, whatever a
`Propose` or a `LinearizableGet` call has returned is explained by one log that, from then on, a
majority of the machines has in its files, running or not. -/
theorem Execution.returned_durable {setting : Setting}
    (execution : Execution setting Cluster.Reliable) {call time : Nat}
    {output : ApplyResult ⊕ (String × Bool)}
    (returned : execution.history.returned call time output) :
    ∃ log, execution.Explains call log output ∧
      ∀ later, time ≤ later → later ≤ execution.length →
        (execution.states later).Preserves setting log := by
  rcases execution.narrated with ⟨narrative, rfl⟩
  rcases narrative.explained returned with ⟨-, populated, log, limit, explains, chosen⟩
  refine ⟨log, explains, fun later after bound => ?_⟩
  have still := chosen.mono (narrative.chronicle.extended after bound) le_rfl
  exact (narrative.realized later bound).preserves populated still

theorem Execution.returned_durable_visits : visits.history.returned 7 23 (.inl Cluster.putResult) ∧
    (∃ log, visits.Explains 7 log (.inl Cluster.putResult) ∧
      ∀ later, 23 ≤ later → later ≤ visits.length →
        (visits.states later).Preserves trioSetting log) ∧
    visits.history.returned 24 33 (.inr ("v", true)) ∧
    ∃ log, visits.Explains 24 log (.inr ("v", true)) ∧
      ∀ later, 33 ≤ later → later ≤ visits.length →
        (visits.states later).Preserves trioSetting log := by
  rcases visits_returned with ⟨write, read, -⟩
  exact ⟨write, returned_durable visits write, read, returned_durable visits read⟩

theorem Execution.proposals_mono {setting : Setting} {allowed : Cluster → Event → Prop}
    (execution : Execution setting allowed) {early late : Nat} (order : early ≤ late)
    (bound : late ≤ execution.length) :
    (execution.states early).proposals ⊆ (execution.states late).proposals := by
  induction late, order using Nat.le_induction with
  | base => exact fun _ member => member
  | succ late _ ih =>
      exact List.Subset.trans (ih (Nat.le_of_succ_le bound))
        (Cluster.step_proposals (execution.taken late bound))

/-- What `Propose` has returned a result for is on record, and a majority of the machines keeps it
and all that stands before it, however the run goes on. -/
theorem Cluster.answer_preserved {setting : Setting} {w : Cluster}
    (run : Run setting Reliable initial w) {answer : Answer} (told : answer ∈ w.answers)
    (resolved : answer.Resolved) :
    ∃ proposal ∈ w.proposals, proposal.node = answer.node ∧ proposal.chan = answer.chan ∧
      ∃ before, ∀ later, Run setting Reliable w later →
        later.Preserves setting (before ++ [proposal.entry]) := by
  rcases Execution.exists_of_run run with ⟨execution, rfl⟩
  rcases execution.narrated with ⟨narrative, rfl⟩
  rcases narrative.answer_recorded le_rfl told resolved with
    ⟨order, proposal, made, node, chan, before, folded, -⟩
  rcases narrative.folded_chosen folded order.le with ⟨-, limit, chosen⟩
  rcases folded with ⟨moment, early, id, p, live, -⟩
  have member := member_of_live (narrative.run (early.trans order.le)) live
  have now := chosen.mono (narrative.chronicle.extended order.le le_rfl) le_rfl
  refine ⟨proposal, narrative.proposals_mono order.le le_rfl made, node, chan, before,
    fun later further => ?_⟩
  rcases (narrative.realized _ le_rfl).run further with ⟨b, grows, realizes⟩
  exact realizes.preserves ⟨id, Setting.mem_peers member⟩ (now.mono grows le_rfl)

end GoRaftKV.Raft
