import GoRaftKV.Client.Kvctl
import GoRaftKV.Raft.ProtocolRuns
import GoRaftKV.Raft.Rejections

/-! What a finished `kvctl put`, `delete` or `cas` can be sure of. -/

namespace GoRaftKV.Client.Session

open Storage Library Raft

variable {setting : Setting} {s next : Session} {event : Event}

/-- What the event is for the cluster, if it is anything at all. -/
def inner (s : Session) : Event → Option Raft.Event
  | .cluster event => some event
  | .serve _ id fates => some (.propose id s.invocation.command fates)
  | _ => none

theorem step_cluster (taken : s.step setting event = some next) :
    (∃ inside, s.inner event = some inside ∧ s.cluster.step setting inside = some next.cluster) ∨
      next.cluster = s.cluster := by
  cases event with
  | cluster event =>
      rcases Option.map_eq_some_iff.mp taken with ⟨cluster, stepped, rfl⟩
      exact Or.inl ⟨event, rfl, stepped⟩
  | serve attempt id fates =>
      simp only [Session.step] at taken
      split at taken
      · split at taken
        · rcases Option.map_eq_some_iff.mp taken with ⟨cluster, stepped, rfl⟩
          exact Or.inl ⟨_, rfl, stepped⟩
        · cases taken
      · cases taken
  | choose =>
      simp only [Session.step] at taken
      split at taken
      · split at taken <;> cases taken <;> exact Or.inr rfl
      · cases taken
  | expire =>
      simp only [Session.step] at taken
      split at taken
      · split at taken <;> cases taken
        exact Or.inr rfl
      · cases taken
  | fail =>
      simp only [Session.step] at taken
      split at taken <;> cases taken
      exact Or.inr rfl
  | reply =>
      simp only [Session.step] at taken
      split at taken
      · rcases Option.map_eq_some_iff.mp taken with ⟨reply, -, rfl⟩
        split <;> exact Or.inr rfl
      · cases taken

/-- The machines work as in `Cluster.Reliable`; the connections need not. -/
def Reliably (s : Session) (event : Event) : Prop :=
  ∀ inside ∈ s.inner event, s.cluster.Reliable inside

instance (s : Session) (event : Event) : Decidable (s.Reliably event) :=
  inferInstanceAs (Decidable (∀ inside ∈ s.inner event, s.cluster.Reliable inside))

theorem cluster_run {start : Session} (run : Run setting Reliably start s) :
    Cluster.Run setting Cluster.Reliable start.cluster s.cluster := by
  induction run with
  | refl => exact .refl
  | tail _ step ih =>
      rcases step with ⟨event, next, reliably, taken⟩
      rcases step_cluster taken with ⟨inside, part, stepped⟩ | same
      · exact ih.tail (.event inside _ (reliably inside part) stepped)
      · rw [same]
        exact ih

theorem step_attempt (taken : s.step setting event = some next) {call : Attempt}
    (member : call ∈ next.invocation.attempts) {id : NodeId} {chan : ChanId}
    (made : call.proposal = some (id, chan)) :
    (∃ old ∈ s.invocation.attempts, old.proposal = some (id, chan) ∧
      (old.served = true → call.served = true)) ∨ call.served = true ∧ ∃ fates result,
        s.cluster.step setting (.propose id s.invocation.command fates) = some next.cluster ∧
          (s.cluster.outcome setting ⟨id, .propose s.invocation.command, fates, 0⟩).2 =
          .proposed chan result := by
  cases event with
  | cluster event =>
      rcases Option.map_eq_some_iff.mp taken with ⟨cluster, -, rfl⟩
      exact Or.inl ⟨call, member, made, fun served => served⟩
  | choose =>
      simp only [Session.step] at taken
      split at taken
      · split at taken <;> cases taken
        · rcases List.mem_append.mp member with old | new
          · exact Or.inl ⟨call, old, made, fun served => served⟩
          · rw [List.mem_singleton.mp new] at made
            cases made
        · exact Or.inl ⟨call, member, made, fun served => served⟩
      · cases taken
  | serve attempt node fates =>
      simp only [Session.step] at taken
      split at taken
      · split at taken
        · rcases Option.map_eq_some_iff.mp taken with ⟨cluster, stepped, rfl⟩
          rcases List.mem_or_eq_of_mem_set member with old | rfl
          · exact Or.inl ⟨call, old, made, fun served => served⟩
          · simp only at made
            split at made
            · rename_i result output
              cases made
              exact Or.inr ⟨rfl, fates, result, stepped, output⟩
            · cases made
        · cases taken
      · cases taken
  | expire =>
      simp only [Session.step] at taken
      split at taken
      · rename_i attempt current calling
        split at taken <;> cases taken
        rcases List.mem_or_eq_of_mem_set member with old | rfl
        · exact Or.inl ⟨call, old, made, fun served => served⟩
        · exact Or.inl ⟨current, List.mem_of_getElem? (current_eq calling).2, made, fun _ => rfl⟩
      · cases taken
  | fail =>
      simp only [Session.step] at taken
      split at taken <;> cases taken
      exact Or.inl ⟨call, member, made, fun served => served⟩
  | reply =>
      simp only [Session.step] at taken
      split at taken
      · rcases Option.map_eq_some_iff.mp taken with ⟨reply, -, rfl⟩
        split at member <;> exact Or.inl ⟨call, member, made, fun served => served⟩
      · cases taken

theorem step_command (taken : s.step setting event = some next) :
    next.invocation.command = s.invocation.command := by
  unfold Session.step at taken
  split at taken
  · rcases Option.map_eq_some_iff.mp taken with ⟨cluster, -, rfl⟩
    rfl
  · split at taken
    · split at taken <;> cases taken <;> rfl
    · cases taken
  · split at taken
    · split at taken
      · rcases Option.map_eq_some_iff.mp taken with ⟨cluster, -, rfl⟩
        rfl
      · cases taken
    · cases taken
  · split at taken
    · split at taken <;> cases taken
      rfl
    · cases taken
  · split at taken <;> cases taken
    rfl
  · split at taken
    · rcases Option.map_eq_some_iff.mp taken with ⟨reply, -, rfl⟩
      split <;> rfl
    · cases taken

/-- The channel has been given out, and what was proposed on it is the command of the invocation. -/
structure Concerns (s : Session) (id : NodeId) (chan : ChanId) : Prop where
  given : chan < (s.cluster.hosts id).chans
  command : ∀ proposal ∈ s.cluster.proposals, proposal.node = id → proposal.chan = chan →
    proposal.entry.command = s.invocation.command

theorem Concerns.step {id : NodeId} {chan : ChanId} (concerns : s.Concerns id chan)
    (taken : s.step setting event = some next) : next.Concerns id chan := by
  -- No later `Propose` call gets the same channel.
  have same := step_command taken
  rcases step_cluster taken with ⟨inside, -, stepped⟩ | idle
  · refine ⟨concerns.given.trans_le (Cluster.step_hosts_chans stepped id),
      fun proposal recorded node own => ?_⟩
    rw [same]
    rcases Cluster.step_proposal stepped recorded with known | ⟨task, -, site, fresh, -⟩
    · exact concerns.command proposal known node own
    · have bound := concerns.given
      rw [← own, (Host.step_proposed fresh).1, ← node, site] at bound
      exact absurd bound (Nat.lt_irrefl _)
  · refine ⟨?_, fun proposal recorded node own => ?_⟩
    · rw [idle]
      exact concerns.given
    · rw [idle] at recorded
      rw [same]
      exact concerns.command proposal recorded node own

theorem concerns_served (clients : s.cluster.Clients) (taken : s.step setting event = some next)
    {id : NodeId} {fates : List Fate} {chan : ChanId} {result : Except NodeError LogEntry}
    (stepped : s.cluster.step setting (.propose id s.invocation.command fates) = some next.cluster)
    (output : (s.cluster.outcome setting ⟨id, .propose s.invocation.command, fates, 0⟩).2 =
      .proposed chan result) :
    next.Concerns id chan := by
  have ran : s.cluster.server setting (.propose id s.invocation.command fates) =
      some ⟨id, .propose s.invocation.command, fates, 0⟩ := rfl
  rcases Host.step_proposed output with ⟨own, more, -⟩
  refine ⟨?_, fun proposal recorded node same => ?_⟩
  · rw [Cluster.step_served stepped ran, own]
    exact more ▸ Nat.lt_succ_self _
  · rw [step_command taken]
    rcases Cluster.step_proposal stepped recorded with known | ⟨task, also, -, fresh, -⟩
    · have bound := clients.numbered proposal known
      rw [same, own, node] at bound
      exact absurd bound (Nat.lt_irrefl _)
    · cases ran.symm.trans also
      rcases Host.step_accepted fresh with ⟨p, -, -, entry⟩
      rw [entry]
      rfl

theorem Reply.ofProposal_ok {result : ApplyResult} {err : Option NodeError}
    (ok : (Reply.ofProposal result err).ok = true) : err = none := by
  cases err with
  | none => rfl
  | some err => cases err <;> cases ok

theorem answer_some {call : Attempt} {reply : Reply} (answered : s.answer call = some reply)
    (ok : reply.ok = true) : ∃ answer ∈ s.cluster.answers, answer.error = none ∧
      call.proposal = some (answer.node, answer.chan) := by
  unfold answer at answered
  split at answered
  · rename_i id chan made
    rcases Option.map_eq_some_iff.mp answered with ⟨answer, found, rfl⟩
    have key := List.find?_some found
    simp only [decide_eq_true_eq] at key
    exact ⟨answer, List.mem_of_find?_eq_some found,
      Reply.ofProposal_ok ok, by rw [made, key.1, key.2]⟩
  · cases answered

theorem step_returned (taken : s.step setting event = some next) {attempt : Nat} {reply : Reply}
    (returned : next.invocation.stage = .returned attempt reply) :
    s.invocation.stage = .returned attempt reply ∨
      ∃ call, next.invocation.attempts[attempt]? = some call ∧
        s.answer call = some reply ∧ reply.ok = true := by
  cases event with
  | cluster event =>
      rcases Option.map_eq_some_iff.mp taken with ⟨cluster, -, rfl⟩
      exact Or.inl returned
  | choose =>
      simp only [Session.step] at taken
      split at taken
      · split at taken <;> cases taken <;> cases returned
      · cases taken
  | serve number id fates =>
      simp only [Session.step] at taken
      split at taken
      · split at taken
        · rcases Option.map_eq_some_iff.mp taken with ⟨cluster, -, rfl⟩
          exact Or.inl returned
        · cases taken
      · cases taken
  | expire =>
      simp only [Session.step] at taken
      split at taken
      · split at taken <;> cases taken
        cases returned
      · cases taken
  | fail =>
      simp only [Session.step] at taken
      split at taken <;> cases taken
      cases returned
  | reply =>
      simp only [Session.step] at taken
      split at taken
      · rename_i number call calling
        rcases Option.map_eq_some_iff.mp taken with ⟨answer, answered, rfl⟩
        split at returned
        · rename_i ok
          cases returned
          rw [if_pos ok]
          exact Or.inr ⟨call, (current_eq calling).2, answered, ok⟩
        · cases returned
      · cases taken

/-- The `Propose` calls of the invocation concern its command, and it has returned with the answer
to one of them. -/
structure Truthful (s : Session) : Prop where
  attempts : ∀ call ∈ s.invocation.attempts, ∀ id chan, call.proposal = some (id, chan) →
    call.served = true ∧ s.Concerns id chan
  returned : ∀ attempt reply, s.invocation.stage = .returned attempt reply →
    ∃ call, s.invocation.attempts[attempt]? = some call ∧ ∃ answer ∈ s.cluster.answers,
      answer.error = none ∧ call.proposal = some (answer.node, answer.chan)

theorem step_answers (taken : s.step setting event = some next) :
    s.cluster.answers ⊆ next.cluster.answers := by
  rcases step_cluster taken with ⟨inside, -, stepped⟩ | idle
  · have run : Cluster.Run setting (fun _ _ => True) s.cluster next.cluster :=
      .single (.event inside _ trivial stepped)
    exact Cluster.answers_of_run run
  · rw [idle]
    exact fun _ member => member

theorem Truthful.step (truthful : s.Truthful) (clients : s.cluster.Clients)
    (taken : s.step setting event = some next) : next.Truthful where
  attempts := by
    intro call member id chan made
    rcases step_attempt taken member made with
      ⟨old, present, before, keeps⟩ | ⟨served, fates, result, stepped, output⟩
    · rcases truthful.attempts old present id chan before with ⟨served, concerns⟩
      exact ⟨keeps served, concerns.step taken⟩
    · exact ⟨served, concerns_served clients taken stepped output⟩
  returned := by
    intro attempt reply returned
    rcases step_returned taken returned with before | ⟨call, place, answered, ok⟩
    · rcases truthful.returned attempt reply before with ⟨call, place, answer, told, success, made⟩
      have served := (truthful.attempts call (List.mem_of_getElem? place) _ _ made).1
      exact ⟨call, step_served taken place served, answer, step_answers taken told, success, made⟩
    · rcases answer_some answered ok with ⟨answer, told, success, made⟩
      exact ⟨call, place, answer, step_answers taken told, success, made⟩

theorem truthful_of_run {start : Session} {command : Command} {endpoints : List String}
    (begun : start.cluster = .initial) (fresh : start.invocation = .begin command endpoints)
    (run : Run setting Reliably start s) : s.Truthful ∧ s.invocation.command = command := by
  induction run with
  | refl =>
      rw [fresh]
      refine ⟨⟨?_, ?_⟩, rfl⟩
      · intro call member
        rw [fresh] at member
        cases member
      · intro attempt reply returned
        rw [fresh] at returned
        cases returned
  | tail earlier step ih =>
      have clients := Cluster.clients_of_run (begun ▸ cluster_run earlier)
      rcases step with ⟨event, next, -, taken⟩
      exact ⟨ih.1.step clients taken, (step_command taken).trans ih.2⟩

/-- Once `kvctl put`, `delete` or `cas` has returned without an error, the `Propose` call of the
attempt it returned from has got an entry with the command as it was given, and however the run
goes on a majority of the machines has that entry, and one and the same log before it, in its
files, running or not. -/
theorem success_kept {start : Session} {command : Command} {endpoints : List String}
    (begun : start.cluster = .initial) (fresh : start.invocation = .begin command endpoints)
    (run : Run setting Reliably start s) {attempt : Nat} {reply : Reply}
    (returned : s.invocation.stage = .returned attempt reply) :
    ∃ call, s.invocation.attempts[attempt]? = some call ∧ ∃ proposal ∈ s.cluster.proposals,
      call.proposal = some (proposal.node, proposal.chan) ∧ proposal.entry.command = command ∧
      ∃ before, ∀ later, Run setting Reliably s later →
        later.cluster.Preserves setting (before ++ [proposal.entry]) := by
  rcases truthful_of_run begun fresh run with ⟨truthful, same⟩
  rcases truthful.returned attempt reply returned with ⟨call, place, answer, told, success, made⟩
  have concerns := (truthful.attempts call (List.mem_of_getElem? place) _ _ made).2
  rcases Cluster.answer_preserved (begun ▸ cluster_run run) told (Or.inl success) with
    ⟨proposal, recorded, node, chan, before, kept⟩
  refine ⟨call, place, proposal, recorded, ?_,
    (concerns.command proposal recorded node chan).trans same, before, ?_⟩
  · rw [made, node, chan]
  · exact fun later further => kept _ (cluster_run further)

def finished (s : Session) : Bool :=
  match s.invocation.stage with
  | .returned _ _ => true
  | _ => false

theorem finished_stage (ended : s.finished = true) :
    ∃ attempt reply, s.invocation.stage = .returned attempt reply := by
  unfold finished at ended
  split at ended
  · rename_i attempt reply stage
    exact ⟨attempt, reply, stage⟩
  · cases ended

/-- The leader crashes after it has answered. -/
theorem success_kept_crashed : ∃ s attempt reply call, Run trioSetting Reliably putSession s ∧
    s.invocation.stage = .returned attempt reply ∧ (s.cluster.hosts "a").proc.isNone = true ∧
    s.invocation.attempts[attempt]? = some call ∧ ∃ proposal ∈ s.cluster.proposals,
      call.proposal = some (proposal.node, proposal.chan) ∧
      proposal.entry.command = { op := .put, key := "k", value := "v" } ∧
      ∃ before, ∀ later, Run trioSetting Reliably s later →
        later.cluster.Preserves trioSetting (before ++ [proposal.entry]) := by
  have played : (play trioSetting Reliably putSession (electing.map Event.cluster ++
      [.choose, .serve 0 "a" []] ++ finishing.map Event.cluster ++
      [.reply, .cluster (.local "a" .crash [])])).any
        (fun s => s.finished && (s.cluster.hosts "a").proc.isNone) = true := by
    decide +kernel
  rcases play_any played with ⟨s, run, ended⟩
  rw [Bool.and_eq_true] at ended
  rcases finished_stage ended.1 with ⟨attempt, reply, stage⟩
  rcases success_kept rfl rfl run stage with ⟨call, kept⟩
  exact ⟨s, attempt, reply, call, run, stage, ended.2, kept⟩

end GoRaftKV.Client.Session
