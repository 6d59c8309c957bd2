import GoRaftKV.Raft.Elections
import GoRaftKV.Raft.Sound
import GoRaftKV.Raft.Waiters

namespace GoRaftKV.Raft

open Storage Library Program

theorem Node.proposeAppend_refuses (n : Node) (cfg : Config) (command : Command) (chan : ChanId) :
    (n.proposeAppend cfg command chan).All fun r => ∀ err, r.2 = .error err → err.Refusal := by
  unfold Node.proposeAppend
  split
  · rintro err ⟨⟩
    trivial
  split
  · rintro err ⟨⟩
    trivial
  split
  · rintro err ⟨⟩
    trivial
  · simp only [perform_bind, all_call, if_true]
    constructor
    · apply All.bind
      apply Node.advanceCommitLocked_moves.mono
      intro m _ err failed
      cases failed
    · rintro err ⟨⟩
      trivial

namespace Host

variable {cfg : Config} {codec : SnapshotCodec} {host : Host} {fates : List Fate} {action : Action}
  {chan : ChanId}

theorem run_chans {α : Type} {program : Program StoreOp α} {finish : α → Host × Output}
    (finished : ∀ value, (finish value).1.chans = host.chans) :
    (host.run program fates finish).1.chans = host.chans := by
  unfold run
  cases program.exec store host.disk fates with
  | done value disk => exact finished value
  | crashed disk => rfl

theorem step_chans (action : Action) :
    (host.step cfg codec fates action).1.chans = host.chans ∨
      ∃ result, (host.step cfg codec fates action).2 = .proposed host.chans result ∧
        (host.step cfg codec fates action).1.chans = host.chans + 1 := by
  unfold Host.step
  split
  · rename_i p live
    cases action with
    | propose command =>
        simp only [Proc.step, run]
        cases (p.node.proposeAppend cfg command host.chans).exec store host.disk fates with
        | done value disk => exact Or.inr ⟨_, rfl, rfl⟩
        | crashed disk => exact Or.inl rfl
    | requestVote | appendEntries | startElection | becomeLeader | stepDown | replicateReply
    | snapshotReply => exact Or.inl (run_chans fun _ => rfl)
    | installSnapshot call req =>
        simp only [Proc.step]
        split
        · left
          apply run_chans
          rintro ⟨m, progress⟩
          cases progress <;> rfl
        · exact Or.inl rfl
    | persistSave | persistEnd =>
        simp only [Proc.step]
        split
        · exact Or.inl (run_chans fun _ => rfl)
        · exact Or.inl rfl
    | installDecoded =>
        simp only [Proc.step]
        split
        · split
          · exact Or.inl rfl
          split
          · exact Or.inl (run_chans fun _ => rfl)
          · exact Or.inl rfl
        · exact Or.inl rfl
    | cancel | replicate | snapshotSent | stop | crash | restart => exact Or.inl rfl
    | applyNext | persistCheck =>
        simp only [Proc.step]
        split
        · split <;> exact Or.inl rfl
        · exact Or.inl rfl
    | applyEntry | applyDone =>
        simp only [Proc.step]
        split <;> exact Or.inl rfl
  · split
    · exact Or.inl (run_chans fun _ => rfl)
    · exact Or.inl rfl

theorem step_chans_le (action : Action) :
    host.chans ≤ (host.step cfg codec fates action).1.chans := by
  have chans : (host.step cfg codec fates action).1.chans = host.chans ∨ _ := step_chans action
  rcases chans with same | ⟨result, -, next⟩ <;> omega

theorem step_proposed {result : Except NodeError LogEntry}
    (output : (host.step cfg codec fates action).2 = .proposed chan result) :
    chan = host.chans ∧ (host.step cfg codec fates action).1.chans = host.chans + 1 ∧
      ∀ err, result = .error err → err.Refusal := by
  have origin : (host.step cfg codec fates action).2.From host action := step_from action
  rw [output] at origin
  rcases origin with ⟨command, rfl⟩
  unfold Host.step at output ⊢
  split at output
  · rename_i p live
    simp only [Proc.step, run] at output ⊢
    cases ran : (p.node.proposeAppend cfg command host.chans).exec store host.disk fates with
    | crashed disk =>
        rw [ran] at output
        cases output
    | done value disk =>
        rw [ran] at output
        cases output
        refine ⟨rfl, rfl, fun err failed => ?_⟩
        have refuses := (Node.proposeAppend_refuses p.node cfg command host.chans).exec ran
        rcases value with ⟨m, other | index⟩
        · cases failed
          exact refuses err rfl
        · cases failed
  · simp only at output
    cases output

theorem step_cancelled {index : Nat} {outcome : Option ApplyOutcome}
    (output : (host.step cfg codec fates action).2 = .cancelled index chan outcome) :
    ∃ p, host.proc = some p ∧ action = .cancel index chan ∧ outcome = p.node.received chan := by
  have origin : (host.step cfg codec fates action).2.From host action := step_from action
  rw [output] at origin
  cases origin
  unfold Host.step at output
  split at output
  · rename_i p live
    cases output
    exact ⟨p, live, rfl, rfl⟩
  · simp only at output
    cases output

end Host

namespace Cluster

variable {setting : Setting} {allowed : Cluster → Event → Prop} {w next : Cluster} {event : Event}
  {task : Task}

theorem record_proposal {output : Output} {proposal : Proposal}
    (member : proposal ∈ (w.record setting task output).proposals) :
    proposal ∈ w.proposals ∨
      (output = .proposed proposal.chan (.ok proposal.entry) ∧ proposal.node = task.node) := by
  unfold record at member
  split at member
  case h_5 chan entry =>
    rcases List.mem_append.mp member with old | new
    · exact Or.inl old
    · rw [List.mem_singleton.mp new]
      exact Or.inr ⟨rfl, rfl⟩
  case h_13 peer acked => split at member <;> exact Or.inl member
  case h_14 acked => split at member <;> exact Or.inl member
  all_goals exact Or.inl member

theorem record_proposals (output : Output) :
    w.proposals ⊆ (w.record setting task output).proposals := by
  intro proposal member
  unfold record
  split
  case h_5 chan entry => exact List.mem_append_left _ member
  case h_13 peer acked => split <;> exact member
  case h_14 acked => split <;> exact member
  all_goals exact member

theorem client_proposals {mid : Cluster} (handled : w.client setting event = some mid) :
    mid.proposals = w.proposals := by
  cases client_cases handled <;> rfl

theorem step_proposal (taken : w.step setting event = some next) {proposal : Proposal}
    (member : proposal ∈ next.proposals) :
    proposal ∈ w.proposals ∨ ∃ task, w.server setting event = some task ∧
      proposal.node = task.node ∧
        (w.outcome setting task).2 = .proposed proposal.chan (.ok proposal.entry) ∧
      next.hosts task.node = (w.outcome setting task).1 := by
  rcases step_cases taken with ⟨task, ran, -, rfl⟩ | ⟨mid, handled, rfl⟩
  · rcases record_proposal member with old | ⟨output, own⟩
    · exact Or.inl old
    · have hosts : (w.serve setting task).tick.hosts = _ := serve_hosts
      refine Or.inr ⟨task, ran, own, output, ?_⟩
      rw [hosts, Function.update_self]
  · have same : mid.proposals = w.proposals := client_proposals handled
    exact Or.inl (same ▸ member)

theorem step_proposals (taken : w.step setting event = some next) :
    w.proposals ⊆ next.proposals := by
  rcases step_cases taken with ⟨task, -, -, rfl⟩ | ⟨mid, handled, rfl⟩
  · exact fun proposal member => record_proposals _ member
  · have same : mid.proposals = w.proposals := client_proposals handled
    exact fun proposal member => same.symm ▸ member

theorem step_hosts_chans (taken : w.step setting event = some next) (id : NodeId) :
    (w.hosts id).chans ≤ (next.hosts id).chans := by
  rcases step_host taken id with same | ⟨task, -, rfl, -, stepped⟩
  · rw [same]
  · rw [stepped]
    exact Host.step_chans_le task.action

/-- The `Propose` calls: each has its own channel, and the waiters of a process are among them. -/
structure Clients (w : Cluster) : Prop where
  sound : w.Sound
  waits : ∀ id p, (w.hosts id).proc = some p → p.Waits (w.hosts id).chans
  recorded : ∀ id p, (w.hosts id).proc = some p → ∀ chan entry, (chan, entry) ∈ p.node.proposed →
    ⟨id, chan, entry⟩ ∈ w.proposals
  numbered : ∀ proposal ∈ w.proposals, proposal.chan < (w.hosts proposal.node).chans
  unique : ∀ first ∈ w.proposals, ∀ second ∈ w.proposals, first.node = second.node →
    first.chan = second.chan → first = second

theorem Clients.waits_step (clients : w.Clients) (taken : w.step setting event = some next)
    {id : NodeId} {q : Proc} (alive : (next.hosts id).proc = some q) :
    q.Waits (next.hosts id).chans := by
  rcases step_host taken id with same | ⟨task, ran, rfl, -, stepped⟩
  · rw [same] at alive ⊢
    exact clients.waits id q alive
  · rw [stepped] at alive ⊢
    rcases clients.sound.origin (server_asked ran) alive with ⟨p, live, move⟩ | ⟨loaded, -, rfl, -⟩
    · exact move.waits (clients.sound.wellFormed task.node p live) (clients.waits task.node p live)
    · exact restored_waits loaded _

theorem Clients.recorded_step (clients : w.Clients) (taken : w.step setting event = some next)
    {id : NodeId} {q : Proc} (alive : (next.hosts id).proc = some q) {chan : ChanId}
    {entry : LogEntry} (made : (chan, entry) ∈ q.node.proposed) :
    ⟨id, chan, entry⟩ ∈ next.proposals := by
  have grows := step_proposals taken
  rcases step_cases taken with ⟨task, ran, -, rfl⟩ | ⟨mid, handled, rfl⟩
  · have hosts : (w.serve setting task).tick.hosts = _ := serve_hosts
    rw [hosts] at alive
    by_cases own : id = task.node
    · subst own
      rw [Function.update_self] at alive
      rcases clients.sound.origin (server_asked ran) alive with
        ⟨p, live, move⟩ | ⟨loaded, -, rfl, -⟩
      · rcases move.proposed with same | ⟨accepted, output, more⟩
        · rw [same] at made
          exact grows (clients.recorded task.node p live chan entry made)
        · rw [more] at made
          rcases List.mem_append.mp made with old | new
          · exact grows (clients.recorded task.node p live chan entry old)
          · cases List.mem_singleton.mp new
            simp only [tick, serve, output, record]
            exact List.mem_append_right _ (List.mem_singleton_self _)
      · cases made
    · rw [Function.update_of_ne own] at alive
      exact grows (clients.recorded id q alive chan entry made)
  · have hosts : mid.hosts = w.hosts := client_hosts handled
    have live : (mid.hosts id).proc = some q := alive
    rw [hosts] at live
    exact grows (clients.recorded id q live chan entry made)

theorem Clients.step (clients : w.Clients) (taken : w.step setting event = some next) :
    next.Clients where
  sound := clients.sound.step taken
  waits := fun id q alive => clients.waits_step taken alive
  recorded := fun id q alive chan entry made => clients.recorded_step taken alive made
  numbered := by
    intro proposal member
    rcases step_proposal taken member with old | ⟨task, -, own, output, stepped⟩
    · exact (clients.numbered proposal old).trans_le (step_hosts_chans taken proposal.node)
    · rcases Host.step_proposed output with ⟨fresh, more, -⟩
      have chans : (w.outcome setting task).1.chans = (w.hosts task.node).chans + 1 := more
      rw [own, stepped, chans, fresh]
      exact Nat.lt_succ_self _
  unique := by
    intro first one second two node chan
    -- a channel that has just been handed out is on no earlier call
    have fresh (old new : Proposal) (earlier : old ∈ w.proposals) (same : old.node = new.node)
        (equal : old.chan = new.chan) {task : Task} (own : new.node = task.node)
        (output : (w.outcome setting task).2 = .proposed new.chan (.ok new.entry)) : False := by
      have number := (Host.step_proposed output).1
      have bound := clients.numbered old earlier
      rw [same, own, equal, number] at bound
      exact bound.false
    rcases step_proposal taken one with oldOne | ⟨task, ran, own, output, -⟩
    · rcases step_proposal taken two with oldTwo | ⟨other, also, owned, said, -⟩
      · exact clients.unique first oldOne second oldTwo node chan
      · exact (fresh first second oldOne node chan owned said).elim
    · rcases step_proposal taken two with oldTwo | ⟨other, also, owned, said, -⟩
      · exact (fresh second first oldTwo node.symm chan.symm own output).elim
      · cases Option.some.inj (ran.symm.trans also)
        have same := output.symm.trans said
        simp only [Output.proposed.injEq, Except.ok.injEq] at same
        rcases first with ⟨id, number, entry⟩
        rcases second with ⟨otherId, otherNumber, otherEntry⟩
        cases node
        cases same.1
        cases same.2
        rfl

theorem clients_initial : initial.Clients where
  sound := sound_initial
  waits := by
    intro id p live
    cases live
  recorded := by
    intro id p live
    cases live
  numbered := by
    intro proposal member
    cases member
  unique := by
    intro first member
    cases member

theorem clients_of_run (run : Run setting allowed initial w) : w.Clients := by
  induction run with
  | refl => exact clients_initial
  | tail _ step ih =>
      rcases step with ⟨event, next, -, taken⟩
      exact ih.step taken

/-- What a `Propose` call has returned with: a refusal of `proposeAppend`, what its channel has
received, or nothing it can know. -/
def Returned (w : Cluster) (setting : Setting) (event : Event) (answer : Answer) : Prop :=
  (∃ task err, w.server setting event = some task ∧ task.node = answer.node ∧
      (w.outcome setting task).2 = .proposed answer.chan (.error err) ∧ answer.error = some err) ∨
    (∃ p outcome, (w.hosts answer.node).proc = some p ∧ p.node.received answer.chan = some outcome ∧
      (answer.result, answer.error) = resultFromOutcome outcome) ∨
    ∃ index, answer.error = some (.proposalUnknown index)

theorem record_answer {output : Output} {answer : Answer}
    (member : answer ∈ (w.record setting task output).answers) :
    answer ∈ w.answers ∨ (answer.node = task.node ∧
      ((∃ err, output = .proposed answer.chan (.error err) ∧ answer.error = some err) ∨
      (∃ index outcome, output = .cancelled index answer.chan (some outcome) ∧
        (answer.result, answer.error) = resultFromOutcome outcome) ∨
      ∃ index, answer.error = some (.proposalUnknown index))) := by
  unfold record at member
  split at member
  case h_6 chan err =>
    rcases List.mem_append.mp member with old | new
    · exact Or.inl old
    · rw [List.mem_singleton.mp new]
      exact Or.inr ⟨rfl, Or.inl ⟨err, rfl, rfl⟩⟩
  case h_7 index chan outcome =>
    rcases List.mem_append.mp member with old | new
    · exact Or.inl old
    · rw [List.mem_singleton.mp new]
      exact Or.inr ⟨rfl, Or.inr (Or.inl ⟨index, outcome, rfl, rfl⟩)⟩
  case h_8 index chan =>
    rcases List.mem_append.mp member with old | new
    · exact Or.inl old
    · rw [List.mem_singleton.mp new]
      exact Or.inr ⟨rfl, Or.inr (Or.inr ⟨index, rfl⟩)⟩
  case h_13 peer acked => split at member <;> exact Or.inl member
  case h_14 acked => split at member <;> exact Or.inl member
  all_goals exact Or.inl member

theorem client_answer {mid : Cluster} (handled : w.client setting event = some mid)
    {answer : Answer} (member : answer ∈ mid.answers) :
    answer ∈ w.answers ∨ w.Returned setting event answer := by
  cases client_cases handled with
  | answer id chan p outcome live received =>
      rcases List.mem_append.mp member with old | new
      · exact Or.inl old
      · rw [List.mem_singleton.mp new]
        exact Or.inr (Or.inr (Or.inl ⟨p, outcome, live, received, rfl⟩))
  | _ => exact Or.inl member

theorem step_answer (taken : w.step setting event = some next) {answer : Answer}
    (member : answer ∈ next.answers) : answer ∈ w.answers ∨ w.Returned setting event answer := by
  rcases step_cases taken with ⟨task, ran, -, rfl⟩ | ⟨mid, handled, rfl⟩
  · rcases record_answer member with
      old | ⟨own, ⟨err, output, error⟩ | ⟨index, outcome, output, same⟩ | unknown⟩
    · exact Or.inl old
    · exact Or.inr (Or.inl ⟨task, err, ran, own.symm, output, error⟩)
    · rcases Host.step_cancelled output with ⟨p, live, -, received⟩
      exact Or.inr (Or.inr (Or.inl ⟨p, outcome, own ▸ live, received.symm, same⟩))
    · exact Or.inr (Or.inr (Or.inr unknown))
  · exact client_answer handled member

end Cluster

/-- `Propose` has returned a result of the state machine, possibly its rejection. -/
def Answer.Resolved (answer : Answer) : Prop :=
  answer.error = none ∨ ∃ reason, answer.error = some (.rejected reason)

theorem Answer.Resolved.outcome {answer : Answer} {outcome : ApplyOutcome}
    (resolved : answer.Resolved) (same : (answer.result, answer.error) = resultFromOutcome outcome)
    (honest : ∀ reason, outcome.err ≠ some (.rejected reason)) :
    outcome.err = none ∧ answer.result = outcome.result := by
  rcases answer with ⟨id, chan, result, error, time⟩
  unfold resultFromOutcome at same
  split at same
  · rename_i err failed
    cases same
    rcases resolved with success | ⟨reason, rejected⟩
    · cases success
    · cases rejected
      exact absurd failed (honest reason)
  · rename_i success
    split at same <;> cases same <;> exact ⟨success, rfl⟩

namespace Cluster

variable {setting : Setting} {w next : Cluster} {event : Event}

theorem Clients.resolved (clients : w.Clients) (taken : w.step setting event = some next)
    {answer : Answer} (member : answer ∈ next.answers) (fresh : answer ∉ w.answers)
    (resolved : answer.Resolved) :
    ∃ proposal p, proposal ∈ w.proposals ∧ proposal.node = answer.node ∧
      proposal.chan = answer.chan ∧ (∀ other ∈ w.proposals, other.node = answer.node →
        other.chan = answer.chan → other = proposal) ∧
      (w.hosts answer.node).proc = some p ∧ (proposal.entry, answer.result) ∈ p.node.applies ∧
      ∃ data, answer.result = (KVStateMachine.apply data proposal.entry.command).2 := by
  rcases step_answer taken member with old | returned
  · exact absurd old fresh
  rcases returned with
    ⟨task, err, -, -, output, error⟩ | ⟨p, outcome, live, received, same⟩ | ⟨index, error⟩
  · have refusal := (Host.step_proposed output).2.2 err rfl
    rcases resolved with success | ⟨reason, rejected⟩
    · cases error.symm.trans success
    · cases error.symm.trans rejected
      exact refusal.elim
  · have waits := (clients.waits answer.node p live).node
    have sent : (answer.chan, outcome) ∈ p.node.delivered := by
      simp only [Node.received, Option.map_eq_some_iff] at received
      rcases received with ⟨⟨chan, told⟩, found, rfl⟩
      have key := List.find?_some found
      simp only [decide_eq_true_eq] at key
      cases key
      exact List.mem_of_find?_eq_some found
    have honest (reason : String) : outcome.err ≠ some (.rejected reason) := by
      intro rejected
      rcases waits.genuine _ sent with ⟨err, failed, refusal⟩ | ⟨success, -⟩
      · cases rejected.symm.trans failed
        exact refusal
      · cases rejected.symm.trans success
    rcases resolved.outcome same honest with ⟨success, result⟩
    rcases waits.genuine _ sent with ⟨err, failed, -⟩ | ⟨-, entry, made, applied⟩
    · cases success.symm.trans failed
    · have recorded := clients.recorded answer.node p live answer.chan entry made
      rw [← result] at applied
      refine ⟨_, p, recorded, rfl, rfl, ?_, live, applied, waits.applies _ applied⟩
      intro other known node chan
      exact clients.unique other known _ recorded node chan
  · rcases resolved with success | ⟨reason, rejected⟩
    · cases error.symm.trans success
    · cases error.symm.trans rejected

/-- In every run, whichever store calls fail: no channel is sent two outcomes or awaits another one
after its first; and a `Propose` call that returns a result or a rejection returns what the state
machine answered when the process applied the very entry the call had made. -/
theorem proposal_outcome (run : Run setting (fun _ _ => True) initial w) :
    (∀ id p, (w.hosts id).proc = some p →
      (p.node.waiters.map Prod.snd ++ p.node.delivered.map Prod.fst).Nodup) ∧
    ∀ event next answer, w.step setting event = some next → answer ∈ next.answers →
      answer ∉ w.answers → answer.Resolved →
      ∃ proposal p, proposal ∈ w.proposals ∧ proposal.node = answer.node ∧
        proposal.chan = answer.chan ∧ (∀ other ∈ w.proposals, other.node = answer.node →
          other.chan = answer.chan → other = proposal) ∧
        (w.hosts answer.node).proc = some p ∧ (proposal.entry, answer.result) ∈ p.node.applies ∧
        ∃ data, answer.result = (KVStateMachine.apply data proposal.entry.command).2 := by
  have clients := clients_of_run run
  exact ⟨fun id p live => (clients.waits id p live).node.distinct,
    fun event next answer taken member fresh resolved =>
      clients.resolved taken member fresh resolved⟩

def accepting : List Event :=
  [.local "a" .restart [], .local "b" .restart [], .local "c" .restart [],
   .campaign "a" [], .solicit 0 "b", .deliver 0 [], .win 0 [],
   .propose "a" { op := .put, key := "k", value := "v" } []]

def committing : List Event := [.replicate "a" "c", .deliver 1 [], .reply 1 []]

/-- One iteration of `applyReady`, with `persistSnapshot` where it has captured a snapshot. -/
def applying (id : NodeId) : List Event :=
  [.local id .applyNext [], .local id .applyEntry [], .local id .applyDone [],
   .local id (.persistCheck 0) [], .local id .persistSave [], .local id .persistEnd []]

def putResult : ApplyResult := { ok := true, found := true, value := "v" }

theorem proposal_outcome_put : ∃ w next answer, Run trioSetting (fun _ _ => True) initial w ∧
    w.step trioSetting (.answer "a" 0) = some next ∧ answer ∈ next.answers ∧ answer ∉ w.answers ∧
    answer.error = none ∧ answer.result = putResult ∧
    ∃ proposal p, proposal ∈ w.proposals ∧ proposal.chan = 0 ∧ proposal.node = "a" ∧
      (w.hosts "a").proc = some p ∧ (proposal.entry, putResult) ∈ p.node.applies := by
  have played : (play trioSetting (fun _ _ => True) initial
      (accepting ++ committing ++ applying "a" ++ applying "a")).any (fun w =>
        w.answers.isEmpty && (w.step trioSetting (.answer "a" 0)).any fun next =>
          next.answers.any fun answer =>
            answer.node = "a" ∧ answer.chan = 0 ∧ answer.error = none ∧ answer.result = putResult) =
              true := by
    decide +kernel
  rcases play_any played with ⟨w, run, checked⟩
  simp only [Bool.and_eq_true, List.isEmpty_iff] at checked
  rcases checked with ⟨empty, stepped⟩
  rcases (Option.any_eq_true _ _).mp stepped with ⟨next, taken, found⟩
  rcases List.any_eq_true.mp found with ⟨answer, member, fields⟩
  simp only [decide_eq_true_eq] at fields
  rcases fields with ⟨node, chan, success, result⟩
  have fresh : answer ∉ w.answers := by
    rw [empty]
    exact List.not_mem_nil
  rcases (proposal_outcome run).2 _ next answer taken member fresh (Or.inl success) with
    ⟨proposal, p, known, own, number, -, live, applied, -⟩
  rw [node] at own live
  rw [chan] at number
  rw [result] at applied
  exact ⟨w, next, answer, run, taken, member, fresh, success, result, proposal, p, known, number,
    own, live, applied⟩

/-- When a node goes on to install a snapshot beyond its commit index, it has no waiter for an entry
that is committed. -/
def Settled (setting : Setting) (w : Cluster) (event : Event) : Prop :=
  ∀ task ∈ w.server setting event, ∀ p ∈ (w.hosts task.node).proc, ∀ index ∈ p.installs task.action,
    p.node.commitIndex < index → ∀ waiter ∈ p.node.waiters, p.node.commitIndex < waiter.1

instance (setting : Setting) (w : Cluster) (event : Event) :
    Decidable (Settled setting w event) := by
  unfold Settled
  infer_instance

theorem unapplied_step (clients : w.Clients) (taken : w.step setting event = some next)
    (settled : Settled setting w event)
    (unapplied : ∀ id p, (w.hosts id).proc = some p →
      ∀ waiter ∈ p.node.waiters, p.node.lastApplied < waiter.1)
    {id : NodeId} {q : Proc} (alive : (next.hosts id).proc = some q) :
    ∀ waiter ∈ q.node.waiters, q.node.lastApplied < waiter.1 := by
  rcases step_host taken id with same | ⟨task, ran, rfl, -, stepped⟩
  · rw [same] at alive
    exact unapplied id q alive
  · rw [stepped] at alive
    rcases clients.sound.origin (server_asked ran) alive with ⟨p, live, move⟩ | ⟨loaded, -, rfl, -⟩
    · refine move.unapplied (clients.sound.wellFormed task.node p live)
        (clients.waits task.node p live).purged ?_ (unapplied task.node p live)
      intro call req body held released free beyond
      have action : task.action = .installDecoded := by
        rcases Host.step_decoded live held alive with action | still
        · exact action
        · cases released.symm.trans still
      refine settled task ran p live req.lastIncludedIndex ?_ beyond
      simp only [Proc.installs, action, held, free, if_true, Option.mem_def]
    · intro waiter member
      cases member

/-- As long as no installation finds a waiter for an entry that is committed and not yet applied,
every registered waiter is above `lastApplied`. -/
theorem waiters_unapplied (run : Run setting (Settled setting) initial w) {id : NodeId} {p : Proc}
    (live : (w.hosts id).proc = some p) :
    ∀ waiter ∈ p.node.waiters, p.node.lastApplied < waiter.1 := by
  induction run generalizing id p with
  | refl => cases live
  | tail run step ih =>
      rcases step with ⟨event, next, settled, taken⟩
      exact unapplied_step (clients_of_run run) taken settled (fun _ _ alive => ih alive) live

def awaitsSecond (p : Proc) : Bool := p.node.waiters = [(2, 0)] ∧ p.node.lastApplied = 1

theorem waiters_unapplied_put : ∃ w p, Run trioSetting (Settled trioSetting) initial w ∧
    (w.hosts "a").proc = some p ∧ p.node.waiters = [(2, 0)] ∧ p.node.lastApplied = 1 ∧
    ∀ waiter ∈ p.node.waiters, p.node.lastApplied < waiter.1 := by
  have played : (play trioSetting (Settled trioSetting) initial
      (accepting ++ committing ++ applying "a")).any (fun w => w.holdsAt "a" awaitsSecond) =
        true := by
    decide +kernel
  rcases play_any played with ⟨w, run, checked⟩
  rcases holdsAt_proc checked with ⟨p, live, fields⟩
  simp only [awaitsSecond, decide_eq_true_eq] at fields
  exact ⟨w, p, run, live, fields.1, fields.2, waiters_unapplied run live⟩

/-- `c` takes over in term 2, accepts entry 4, commits it with `b`, and applies the first three
entries, compacting its log after each of them. -/
def compacting : List Event :=
  [.campaign "c" [], .solicit 1 "b", .deliver 2 [], .win 1 [],
   .propose "c" { op := .put, key := "k", value := "w" } [], .replicate "c" "b", .deliver 3 [],
   .reply 3 [], .replicate "c" "b", .deliver 4 [], .reply 4 []] ++
  applying "c" ++ applying "c" ++ applying "c"

def installing : List Event :=
  [.replicate "c" "a", .chunk 0 0, .deliver 5 [], .local "a" .installDecoded []]

def orphaned (p : Proc) : Bool := p.node.waiters = [(2, 0)] ∧ p.node.lastApplied = 3

/-- The snapshot carries `lastApplied` past a committed entry whose waiter stays registered. -/
theorem waiter_orphaned_by_install : ∃ w p, Run trioSetting Reliable initial w ∧
    (w.hosts "a").proc = some p ∧ p.node.waiters = [(2, 0)] ∧ p.node.lastApplied = 3 ∧
    ¬ ∀ waiter ∈ p.node.waiters, p.node.lastApplied < waiter.1 := by
  have played : (play trioSetting Reliable initial
      (accepting ++ committing ++ compacting ++ installing)).any
        (fun w => w.holdsAt "a" orphaned) = true := by
    decide +kernel
  rcases play_any played with ⟨w, run, checked⟩
  rcases holdsAt_proc checked with ⟨p, live, fields⟩
  simp only [orphaned, decide_eq_true_eq] at fields
  refine ⟨w, p, run, live, fields.1, fields.2, ?_⟩
  rw [fields.1, fields.2]
  decide

end Cluster

end GoRaftKV.Raft
