import GoRaftKV.Raft.Accepting
import GoRaftKV.Raft.HostVotes
import GoRaftKV.Raft.Proposals

namespace GoRaftKV.Raft

open Storage Library Program

namespace Node

variable {cfg : Config} {n m k : Node}

theorem Denies.trans (first : n.Denies m) (second : m.Denies k) : n.Denies k :=
  fun sent member denies => first sent (second sent member denies) denies

/-- Waiters that no step-down turns away. -/
def Secured (n : Node) : Prop := ∀ waiter ∈ n.waiters, waiter.1 ≤ n.commitIndex

theorem failUncommittedWaitersLocked_denies (secured : n.Secured) :
    n.Denies (n.failUncommittedWaitersLocked cfg) := by
  intro sent member denies
  rcases List.mem_append.mp member with old | new
  · exact old
  · rcases List.mem_map.mp new with ⟨waiter, chosen, -⟩
    rcases List.mem_filter.mp chosen with ⟨registered, above⟩
    exact absurd (secured waiter registered) (Nat.not_le.mpr (of_decide_eq_true above))

theorem Move.secured (move : Move cfg n m) (secured : n.Secured) : m.Secured := by
  cases move with
  | follow term leaderID =>
      rw [steppedDown, followerAt_eq]
      split
      · exact fun waiter member => secured waiter (List.mem_of_mem_filter member)
      · exact secured
  | fail term leaderID =>
      rw [followerAt_eq]
      exact fun waiter member => secured waiter (List.mem_of_mem_filter member)
  | commit index later bound => exact fun waiter member => (secured waiter member).trans later
  | cancel index chan => exact fun waiter member => secured waiter (List.mem_of_mem_erase member)
  | stop =>
      unfold Node.stop
      split
      · exact secured
      · exact fun waiter member => secured waiter (List.mem_of_mem_filter member)
  | _ => exact secured

theorem Move.denies (move : Move cfg n m) (secured : n.Secured) : n.Denies m := by
  cases move with
  | follow term leaderID =>
      have after : (n.followerAt term leaderID).Secured := by
        rw [followerAt_eq]
        exact secured
      have same : n.Denies (n.followerAt term leaderID) := by
        rw [followerAt_eq]
        exact .same rfl
      unfold steppedDown
      split
      · exact same.trans (failUncommittedWaitersLocked_denies after)
      · exact same
  | fail term leaderID =>
      rw [followerAt_eq]
      exact failUncommittedWaitersLocked_denies (n := { n with
        currentTerm := max n.currentTerm term
        votedFor := if n.currentTerm < term then "" else n.votedFor
        storageFatal := true, role := .follower, leaderID := "", leaderNoopIndex := 0 }) secured
  | stop =>
      unfold Node.stop
      split
      · exact .same rfl
      · exact resolveWaiters_denies (n := { n with stopped := true }) _ _ rfl
  | _ => exact .same rfl

theorem Moves.denies (moves : Moves cfg n m) (secured : n.Secured) : n.Denies m ∧ m.Secured := by
  induction moves with
  | refl => exact ⟨.same rfl, secured⟩
  | tail _ move ih => exact ⟨ih.1.trans (move.denies ih.2), move.secured ih.2⟩

theorem startElection_leading (leads : n.role = .leader) :
    n.startElection cfg = pure (n, none) := by
  unfold startElection
  rw [if_pos (Or.inr (Or.inl leads))]

end Node

/-- A section that registers no waiter turns none away, when no waiter is left for a step-down. -/
theorem Proc.Move.denies {cfg : Config} {chans more : Nat} {p q : Proc} {output : Output}
    (move : p.Move cfg chans output more q) (secured : p.node.Secured)
    (refused : ∀ entry, output = .proposed chans (.ok entry) → p.node.role ≠ .leader) :
    p.node.Denies q.node := by
  cases move with
  | quiet more m persistMu captured _ moves => exact (moves.denies secured).1
  | propose entry m leads next moves accepted => exact absurd leads (refused entry accepted)
  | install m snapshot call req body held free moves follows commit newer index =>
      exact (moves.denies secured).1
  | applyDone entry result captured applied still =>
      exact Node.resolveWaiters_denies (n := { p.node with lastApplied := entry.index }) _ _ rfl
  | _ => exact .same rfl

def Action.isPropose : Action → Bool
  | .propose _ => true
  | _ => false

/-- A leader that has a waiter above its commit index, or is about to register one. -/
def Proc.Exposed (p : Proc) (action : Action) : Prop :=
  p.node.role = .leader ∧
    ((∃ waiter ∈ p.node.waiters, p.node.commitIndex < waiter.1) ∨ action.isPropose = true)

instance (p : Proc) (action : Action) : Decidable (p.Exposed action) :=
  inferInstanceAs (Decidable (_ ∧ _))

/-- The section takes in a message with a term for which a leader steps down. -/
def Proc.Unseats (p : Proc) (cfg : Config) (codec : SnapshotCodec) : Action → Prop
  | .requestVote req =>
      p.node.Hears cfg req.candidateID req.term ∧ p.node.currentTerm < req.term
  | .appendEntries req => p.node.Hears cfg req.leaderID req.term
  | .installSnapshot _ req => p.persistMu = .free ∧ p.node.Hears cfg req.leaderID req.term
  | .installDecoded =>
      match p.persistMu with
      | .decoding _ req body =>
          (codec.decodeBody body).isSome = true ∧ p.applyMu = .free ∧
            p.node.Hears cfg req.leaderID req.term
      | _ => False
  | .stepDown _ _ => True
  | .replicateReply _ _ resp => p.node.currentTerm < resp.term
  | .snapshotReply _ resp => p.node.currentTerm < resp.term
  | _ => False

instance (p : Proc) (cfg : Config) (codec : SnapshotCodec) (action : Action) :
    Decidable (p.Unseats cfg codec action) := by
  unfold Proc.Unseats
  split <;> try infer_instance
  split <;> infer_instance

/-- The sections in which a leader writes to the store. -/
def Action.writes : Action → Bool
  | .propose _ | .replicateReply _ _ _ => true
  | _ => false

/-- A leader keeps its role in the section or crashes: no message makes it step down, except when
the machine stops as the new term is saved, and no write of its own fails. -/
def Proc.Keeps (p : Proc) (cfg : Config) (codec : SnapshotCodec) (fates : List Fate)
    (action : Action) :
    Prop :=
  (p.Unseats cfg codec action → fates.head?.any Fate.stops = true) ∧
    (action.writes = true → Errorless fates)

instance (p : Proc) (cfg : Config) (codec : SnapshotCodec) (fates : List Fate) (action : Action) :
    Decidable (p.Keeps cfg codec fates action) :=
  inferInstanceAs (Decidable (_ ∧ _))

namespace Node

variable {cfg : Config} {n : Node} {fates : List Fate}

/-- Whenever the section returns, memory is still that of a leader. -/
def LeadsOn (fates : List Fate) {α : Type} (program : Program StoreOp α) (memory : α → Node) :
    Prop :=
  ∀ disk value final, program.exec store disk fates = .done value final →
    (memory value).role = .leader

theorem leadsOn_all {α : Type} {program : Program StoreOp α} {memory : α → Node}
    (every : program.All fun value => (memory value).role = .leader) :
    LeadsOn fates program memory :=
  fun _ _ _ finished => every.exec finished

theorem leadsOn_stopped {α : Type} {term : Nat} {leaderID : NodeId}
    {next : Node × Bool → Program StoreOp α} {memory : α → Node}
    (stops : fates.head?.any Fate.stops = true) :
    LeadsOn fates (n.becomeFollowerLocked cfg term leaderID >>= next) memory :=
  fun _ _ _ finished => absurd finished (exec_call_ne_done stops)

theorem castVote_role (req : RequestVoteRequest) :
    (n.castVote req).All fun r => r.1.role = n.role := by
  unfold castVote persistHardStateLocked saveHardStateLocked
  split
  · simp only [perform_bind, all_call]
    exact ⟨rfl, rfl⟩
  · rfl

theorem compact_role (snapshot : Snapshot) : (n.compact snapshot).All fun m => m.role = n.role := by
  unfold compact
  split
  · rfl
  · simp only [perform_bind, all_call]
    exact ⟨rfl, rfl⟩

theorem leadsOn_wp {α : Type} {program : Program StoreOp α} {memory : α → Node}
    (errorless : Errorless fates)
    (holds : ∀ disk, program.wp store (fun value _ => (memory value).role = .leader) (fun _ => True)
    disk) :
    LeadsOn fates program memory := by
  intro disk value final finished
  have met := wp_exec program disk fates (holds disk) errorless
  rw [finished] at met
  exact met

theorem advanceCommitLocked_leads (leads : n.role = .leader) (disk : Disk) :
    (n.advanceCommitLocked cfg).wp store (fun m _ => m.role = .leader) (fun _ => True) disk := by
  unfold advanceCommitLocked persistHardStateLocked saveHardStateLocked
  split
  · exact leads
  · exact ⟨leads, fun _ => trivial⟩

theorem handleRequestVote_leadsOn {req : RequestVoteRequest} (leads : n.role = .leader)
    (kept : n.Hears cfg req.candidateID req.term ∧ n.currentTerm < req.term →
      fates.head?.any Fate.stops = true) :
    LeadsOn fates (n.handleRequestVote cfg req) Prod.fst := by
  unfold handleRequestVote
  split
  · exact leadsOn_all leads
  split
  · exact leadsOn_all leads
  split
  · exact leadsOn_all leads
  split
  · rename_i admitted known current newer
    exact leadsOn_stopped (kept ⟨.of_checks admitted known current, newer⟩)
  · exact leadsOn_all ((castVote_role req).mono fun r same => same.trans leads)

theorem checked_leadsOn {α : Type} {leaderID : NodeId} {term : Nat} {memory : α → Node}
    {refused settled : Program StoreOp α} {next : Node × Bool → Program StoreOp α}
    (leads : n.role = .leader) (refusal : refused.All fun value => (memory value).role = .leader)
    (kept : n.Hears cfg leaderID term → fates.head?.any Fate.stops = true) :
    LeadsOn fates
      (if n.stopped = true ∨ n.storageFatal = true then refused
        else if cfg.isKnownRemotePeerLocked leaderID = false then refused
        else if term < n.currentTerm then refused
        else if n.currentTerm < term ∨ n.role ≠ .follower then
          n.becomeFollowerLocked cfg term leaderID >>= next
        else settled) memory := by
  split
  · exact leadsOn_all refusal
  split
  · exact leadsOn_all refusal
  split
  · exact leadsOn_all refusal
  split
  · rename_i admitted known current newer
    exact leadsOn_stopped (kept (.of_checks admitted known current))
  · rename_i settled
    rw [leads] at settled
    exact absurd (Or.inr (by decide)) settled

theorem proposeAppend_leadsOn {command : Command} {chan : ChanId} (leads : n.role = .leader)
    (errorless : Errorless fates) : LeadsOn fates (n.proposeAppend cfg command chan) Prod.fst := by
  unfold proposeAppend
  split
  · exact leadsOn_all leads
  split
  · exact leadsOn_all leads
  split
  · exact leadsOn_all leads
  · simp only [perform_bind]
    refine leadsOn_wp errorless fun disk => ⟨?_, fun _ => trivial⟩
    simp only [if_true]
    apply wp_bind
    exact advanceCommitLocked_leads (n := n.accepted cfg _ chan) leads _

theorem replicateReply_leadsOn {peer : NodeId} {req : AppendEntriesRequest}
    {resp : AppendEntriesResponse} (leads : n.role = .leader)
    (kept : n.currentTerm < resp.term → fates.head?.any Fate.stops = true)
    (errorless : Errorless fates) :
    LeadsOn fates (n.replicateReply cfg peer req resp) Prod.fst := by
  unfold replicateReply
  split
  · rename_i newer
    exact leadsOn_stopped (kept newer)
  split
  · exact leadsOn_all leads
  split
  · refine leadsOn_wp errorless fun disk => ?_
    apply wp_bind
    exact advanceCommitLocked_leads (n := n.acknowledge peer _) leads disk
  split
  · exact leadsOn_all leads
  · exact leadsOn_all leads

theorem sendSnapshotReply_leadsOn {term : Nat} {resp : InstallSnapshotResponse}
    (leads : n.role = .leader)
    (kept : n.currentTerm < resp.term → fates.head?.any Fate.stops = true) :
    LeadsOn fates (n.sendSnapshotReply cfg term resp) Prod.fst := by
  unfold sendSnapshotReply
  split
  · rename_i newer
    exact leadsOn_stopped (kept newer)
  · exact leadsOn_all leads

theorem becomeLeader_leadsOn {term : Nat} (leads : n.role = .leader) :
    LeadsOn fates (n.becomeLeader cfg term) id := by
  unfold becomeLeader
  rw [if_pos (Or.inr (Or.inl (by rw [leads]; decide)))]
  exact leadsOn_all leads

end Node

namespace Host

variable {cfg : Config} {codec : SnapshotCodec} {host : Host} {fates : List Fate} {action : Action}
  {p q : Proc}

def StillLeads (host : Host) : Prop := ∀ q, host.proc = some q → q.node.role = .leader

theorem run_leadsOn {α : Type} {program : Program StoreOp α} {memory : α → Node}
    {finish : α → Host × Output} (leadsOn : Node.LeadsOn fates program memory)
    (node : ∀ value q, (finish value).1.proc = some q → q.node = memory value) :
    (host.run program fates finish).1.StillLeads := by
  intro q alive
  unfold Host.run at alive
  split at alive
  · rename_i value disk finished
    rw [node value q alive]
    exact leadsOn _ _ _ finished
  · cases alive

theorem leading_sections (leads : p.node.role = .leader) (keeps : p.Keeps cfg codec fates action)
    (free : ∀ call req, action = .installSnapshot call req → p.persistMu = .free)
    (fresh : action ≠ .installDecoded) (chans : Nat) :
    Node.Sections (Node.LeadsOn fates) cfg chans p.node action where
  requestVote req same := by
    subst same
    exact Node.handleRequestVote_leadsOn leads keeps.1
  appendEntries req same := by
    subst same
    exact Node.checked_leadsOn leads leads keeps.1
  installSnapshot number req same := by
    have unheld := free number req same
    subst same
    exact Node.checked_leadsOn leads leads fun hears => keeps.1 ⟨unheld, hears⟩
  installDecoded req body data same := absurd same fresh
  propose command same := by
    subst same
    exact Node.proposeAppend_leadsOn leads (keeps.2 rfl)
  startElection _ := by
    rw [Node.startElection_leading leads]
    exact Node.leadsOn_all leads
  becomeLeader term _ := Node.becomeLeader_leadsOn leads
  stepDown term leaderID same := by
    subst same
    exact fun _ _ _ finished => absurd finished (exec_call_ne_done (keeps.1 trivial))
  replicateReply peer req resp same := by
    subst same
    exact Node.replicateReply_leadsOn leads keeps.1 (keeps.2 rfl)
  snapshotReply term resp same := by
    subst same
    exact Node.sendSnapshotReply_leadsOn leads keeps.1
  persistSave _ _ := Node.leadsOn_all fun _ => leads
  persistEnd snapshot _ :=
    Node.leadsOn_all ((Node.compact_role snapshot).mono fun _ same => same.trans leads)

/-- Under `Keeps` the process of a leader still leads when the section is over. -/
theorem step_leadsOn (live : host.proc = some p) (leads : p.node.role = .leader)
    (keeps : p.Keeps cfg codec fates action) :
    (p.step cfg codec host fates action).1.StillLeads := by
  have idle : host.StillLeads := by
    intro q alive
    cases live.symm.trans alive
    exact leads
  by_cases decoded : action = .installDecoded
  · -- the request that `HandleInstallSnapshot` works on is in the process
    subst decoded
    simp only [Proc.step]
    split
    · rename_i number req body held
      split
      · intro q alive
        cases alive
        exact leads
      · rename_i data decodes
        split
        · rename_i free
          have kept : p.node.Hears cfg req.leaderID req.term →
              fates.head?.any Fate.stops = true := by
            intro hears
            apply keeps.1
            simp only [Proc.Unseats, held, decodes]
            exact ⟨rfl, free, hears⟩
          have leadsOn : Node.LeadsOn fates (p.node.installDecoded cfg req body data) Prod.fst :=
            Node.checked_leadsOn leads leads kept
          apply run_leadsOn leadsOn
          intro value q alive
          cases alive
          rfl
        · exact idle
    · exact idle
  by_cases held : ∃ call req, action = .installSnapshot call req ∧ p.persistMu ≠ .free
  · rcases held with ⟨number, req, rfl, held⟩
    simp only [Proc.step]
    exact idle
  · push Not at held
    apply Proc.step_rule live (leading_sections leads keeps held decoded host.chans)
    · intro α program memory finish leadsOn node
      exact run_leadsOn leadsOn node
    · intro q akin q' same
      cases same
      exact akin.role.trans leads
    · intro q none
      cases none

theorem step_denies_leading (live : host.proc = some p) (leads : p.node.role = .leader)
    (alive : (p.step cfg codec host fates action).1.proc = some q) (still : q.node.role = .leader) :
    p.node.Denies q.node := by
  by_cases stands : action = .startElection
  · subst stands
    simp only [Proc.step, Node.startElection_leading leads] at alive
    cases alive
    exact .same rfl
  · have renewed := (step_renewed action live fun same => absurd same stands).memory q alive
    rcases renewed.silent with same | silent
    · exact absurd same stands
    · exact (silent (by rw [still]; decide)).2

theorem step_denies (live : host.proc = some p) (wf : WellFormed p.node) (purged : p.node.Purged)
    (safe : ∀ req, action = .appendEntries req → p.node.SpliceSafe req.entries)
    (steady : p.Exposed action → p.Keeps cfg codec fates action)
    (alive : (p.step cfg codec host fates action).1.proc = some q) : p.node.Denies q.node := by
  by_cases exposed : p.Exposed action
  · exact step_denies_leading live exposed.1 alive
      (step_leadsOn live exposed.1 (steady exposed) q alive)
  · have secured : p.node.Secured := by
      intro waiter member
      by_cases leads : p.node.role = .leader
      · by_contra above
        exact exposed ⟨leads, Or.inl ⟨waiter, member, Nat.lt_of_not_le above⟩⟩
      · exact purged leads waiter member
    apply (step_move live wf safe alive).denies secured
    intro entry output leads
    have running : host.step cfg codec fates action = p.step cfg codec host fates action := by
      unfold Host.step
      rw [live]
    have origin : (host.step cfg codec fates action).2.From host action := step_from action
    rw [running, output] at origin
    rcases origin with ⟨command, rfl⟩
    exact exposed ⟨leads, Or.inr rfl⟩

end Host

def Answer.Denied (answer : Answer) : Prop :=
  ∃ leaderID address, answer.error = some (.notLeader leaderID address)

namespace Cluster

variable {setting : Setting} {w next : Cluster} {event : Event}

/-- Nothing makes a leader step down while it has a waiter above its commit index or is about to
register one. -/
def Steady (setting : Setting) (w : Cluster) (event : Event) : Prop :=
  ∀ task ∈ w.server setting event, ∀ p ∈ (w.hosts task.node).proc, p.Exposed task.action →
    p.Keeps (setting.config task.node) setting.codec task.fates task.action

instance (setting : Setting) (w : Cluster) (event : Event) :
    Decidable (Steady setting w event) := by
  unfold Steady
  infer_instance

/-- No waiter has been turned away, and a call that has been turned away has made no entry. -/
structure Definite (w : Cluster) : Prop where
  clients : w.Clients
  silent : ∀ id p, (w.hosts id).proc = some p → ∀ sent ∈ p.node.delivered,
    sent.2.deniesLeadership = false
  numbered : ∀ answer ∈ w.answers, answer.Denied → answer.chan < (w.hosts answer.node).chans
  refused : ∀ answer ∈ w.answers, answer.Denied → ∀ proposal ∈ w.proposals,
    proposal.node = answer.node → proposal.chan ≠ answer.chan

theorem Definite.silent_step (definite : w.Definite) (steady : Steady setting w event)
    (taken : w.step setting event = some next) {id : NodeId} {q : Proc}
    (alive : (next.hosts id).proc = some q) :
    ∀ sent ∈ q.node.delivered, sent.2.deniesLeadership = false := by
  rcases step_host taken id with same | ⟨task, ran, rfl, -, stepped⟩
  · rw [same] at alive
    exact definite.silent id q alive
  · rw [stepped] at alive
    cases live : (w.hosts task.node).proc with
    | none =>
        rcases definite.clients.sound.origin (server_asked ran) alive with
          ⟨p, present, -⟩ | ⟨loaded, -, rfl, -⟩
        · cases live.symm.trans present
        · intro sent member
          cases member
    | some p =>
        have running : w.outcome setting task =
            p.step (setting.config task.node) setting.codec (w.hosts task.node) task.fates
              task.action := by
          unfold outcome Host.step
          rw [live]
        rw [running] at alive
        have denies : p.node.Denies q.node :=
          Host.step_denies live (definite.clients.sound.wellFormed task.node p live)
            (definite.clients.waits task.node p live).purged
            (fun req action => definite.clients.sound.spliceSafe (server_asked ran) p.node action)
            (steady task ran p live) alive
        intro sent member
        by_contra told
        have denied : sent.2.deniesLeadership = true := by simpa using told
        have old := definite.silent task.node p live sent (denies sent member denied)
        cases old.symm.trans denied

theorem Definite.denied_step (definite : w.Definite) (taken : w.step setting event = some next)
    {answer : Answer} (member : answer ∈ next.answers) (denied : answer.Denied) :
    answer ∈ w.answers ∨ ∃ task err, w.server setting event = some task ∧ task.node = answer.node ∧
      (w.outcome setting task).2 = .proposed answer.chan (.error err) := by
  rcases denied with ⟨leaderID, address, error⟩
  rcases step_answer taken member with old | ⟨task, err, ran, own, output, -⟩ |
    ⟨p, outcome, live, received, same⟩ | ⟨index, unknown⟩
  · exact Or.inl old
  · exact Or.inr ⟨task, err, ran, own, output⟩
  · -- no channel has received such an outcome
    simp only [Node.received, Option.map_eq_some_iff] at received
    rcases received with ⟨sent, found, rfl⟩
    have silent := definite.silent answer.node p live sent (List.mem_of_find?_eq_some found)
    have second := congrArg Prod.snd same
    simp only [error, resultFromOutcome] at second
    split at second
    · rename_i err failed
      cases second
      simp only [ApplyOutcome.deniesLeadership, failed] at silent
      cases silent
    · split at second <;> cases second
  · cases error.symm.trans unknown

theorem Definite.step (definite : w.Definite) (steady : Steady setting w event)
    (taken : w.step setting event = some next) : next.Definite where
  clients := definite.clients.step taken
  silent := fun id q alive => definite.silent_step steady taken alive
  numbered := by
    intro answer member denied
    rcases definite.denied_step taken member denied with old | ⟨task, err, ran, own, output⟩
    · exact (definite.numbered answer old denied).trans_le (step_hosts_chans taken answer.node)
    · rcases Host.step_proposed output with ⟨fresh, more, -⟩
      have chans : (w.outcome setting task).1.chans = (w.hosts task.node).chans + 1 := more
      rw [← own, step_served taken ran, chans, fresh]
      exact Nat.lt_succ_self _
  refused := by
    intro answer member denied proposal made node chan
    rcases definite.denied_step taken member denied with old | ⟨task, err, ran, own, output⟩
    · rcases step_proposal taken made with known | ⟨task, -, own, accepted, -⟩
      · exact definite.refused answer old denied proposal known node chan
      · have bound := definite.numbered answer old denied
        rw [← chan, (Host.step_proposed accepted).1, ← node, own] at bound
        exact bound.false
    · rcases step_proposal taken made with known | ⟨other, also, -, accepted, -⟩
      · have bound := definite.clients.numbered proposal known
        rw [chan, (Host.step_proposed output).1, node, own] at bound
        exact bound.false
      · cases Option.some.inj (ran.symm.trans also)
        have clash := output.symm.trans accepted
        simp only [Output.proposed.injEq, reduceCtorEq, and_false] at clash

theorem record_answers {task : Task} (output : Output) :
    w.answers ⊆ (w.record setting task output).answers := by
  intro answer member
  unfold record
  split
  case h_6 | h_7 | h_8 => exact List.mem_append_left _ member
  case h_13 peer acked => split <;> exact member
  case h_14 acked => split <;> exact member
  all_goals exact member

theorem client_answers {mid : Cluster} (handled : w.client setting event = some mid) :
    w.answers ⊆ mid.answers := by
  cases client_cases handled with
  | answer => exact List.subset_append_left _ _
  | _ => exact fun _ member => member

theorem answers_of_run {allowed : Cluster → Event → Prop} (run : Run setting allowed w next) :
    w.answers ⊆ next.answers := by
  induction run with
  | refl => exact fun _ member => member
  | tail _ step ih =>
      rcases step with ⟨event, next, -, taken⟩
      intro answer member
      rcases step_cases taken with ⟨task, -, -, rfl⟩ | ⟨mid, handled, rfl⟩
      · exact record_answers _ (ih member)
      · exact client_answers handled (ih member)

theorem definite_initial : initial.Definite where
  clients := clients_initial
  silent := by
    intro id p live
    cases live
  numbered := by
    intro answer member
    cases member
  refused := by
    intro answer member
    cases member

theorem definite_of_run {first : Cluster} (definite : first.Definite)
    (run : Run setting (Steady setting) first w) : w.Definite := by
  induction run with
  | refl => exact definite
  | tail _ step ih =>
      rcases step with ⟨event, next, steady, taken⟩
      exact ih.step steady taken

/-- As long as no leader stops leading with a waiter above its commit index, a `Propose` call that
has returned a `NotLeaderError` has no entry that is ever committed or applied anywhere. -/
theorem notLeader_definite {first second : Cluster}
    (before : Run setting (Steady setting) initial first)
    (after : Run setting (Steady setting) first second) {answer : Answer}
    (member : answer ∈ first.answers) (denied : answer.Denied) :
    ∀ proposal ∈ second.proposals, proposal.node = answer.node → proposal.chan = answer.chan →
      ∀ id p, (second.hosts id).proc = some p →
        proposal.entry ∉ p.node.fullLog.take p.node.commitIndex ∧
          proposal.entry ∉ p.node.history := by
  have definite := definite_of_run (definite_of_run definite_initial before) after
  intro proposal made node chan
  exact absurd chan (definite.refused answer (answers_of_run after member) denied proposal
    made node)

def redirected : List Event :=
  [.local "a" .restart [], .local "b" .restart [], .local "c" .restart [],
   .campaign "a" [], .solicit 0 "b", .deliver 0 [], .win 0 [],
   .propose "b" { op := .put, key := "k", value := "v" } []]

def retried : List Event :=
  [.propose "a" { op := .put, key := "k", value := "v" } [], .replicate "a" "c", .deliver 1 [],
   .reply 1 []]

def denies (answer : Answer) : Bool :=
  answer.node = "b" ∧ answer.chan = 0 ∧ answer.error = some (.notLeader "" "")

theorem denied_of_denies {answer : Answer} (denied : denies answer = true) :
    answer.node = "b" ∧ answer.chan = 0 ∧ answer.Denied := by
  simp only [denies, decide_eq_true_eq] at denied
  exact ⟨denied.1, denied.2.1, "", "", denied.2.2⟩

theorem notLeader_definite_redirected : ∃ first second answer,
    Run trioSetting (Steady trioSetting) initial first ∧
      Run trioSetting (Steady trioSetting) first second ∧
    answer ∈ first.answers ∧ answer.Denied ∧ second.proposals ≠ [] ∧
    ∀ proposal ∈ second.proposals, proposal.node = answer.node → proposal.chan = answer.chan →
      ∀ id p, (second.hosts id).proc = some p →
        proposal.entry ∉ p.node.fullLog.take p.node.commitIndex ∧
          proposal.entry ∉ p.node.history := by
  have played : (play trioSetting (Steady trioSetting) initial redirected).any (fun first =>
      first.answers.any denies && (play trioSetting (Steady trioSetting) first retried).any
        fun second => !second.proposals.isEmpty) = true := by decide +kernel
  rcases play_any played with ⟨first, before, checked⟩
  simp only [Bool.and_eq_true] at checked
  rcases List.any_eq_true.mp checked.1 with ⟨answer, member, denied⟩
  rcases play_any checked.2 with ⟨second, after, accepted⟩
  simp only [Bool.not_eq_true', List.isEmpty_eq_false_iff] at accepted
  have turned := (denied_of_denies denied).2.2
  exact ⟨first, second, answer, before, after, member, turned, accepted,
    notLeader_definite before after member turned⟩

/-- Entry 2 reaches `b`, whose answer is lost; `c` deposes `a`, and the call on `a` is told so. -/
def deposed : List Event :=
  [.replicate "a" "b", .deliver 1 [], .campaign "c" [], .campaign "c" [], .solicit 2 "a",
   .deliver 2 [], .answer "a" 0]

/-- `b` takes over, and commits and applies entry 2. -/
def revived : List Event :=
  [.campaign "b" [], .solicit 3 "a", .deliver 3 [], .win 3 [], .replicate "b" "a", .deliver 4 [],
   .reply 4 []] ++ applying "b" ++ applying "b"

def putEntry : LogEntry :=
  { index := 2, term := 1, command := { op := .put, key := "k", value := "v" } }

/-- A call that has been told `NotLeader` sees its command committed and applied. -/
theorem notLeader_applied : ∃ first second answer proposal p,
    Run trioSetting Reliable initial first ∧ Run trioSetting Reliable first second ∧
    answer ∈ first.answers ∧ answer.Denied ∧ proposal ∈ first.proposals ∧
    proposal.node = answer.node ∧ proposal.chan = answer.chan ∧ (second.hosts "b").proc = some p ∧
    proposal.entry ∈ p.node.fullLog.take p.node.commitIndex ∧ proposal.entry ∈ p.node.history := by
  have played : (play trioSetting Reliable initial (accepting ++ deposed)).any (fun first =>
      first.answers.any (fun answer =>
        answer.node = "a" ∧ answer.chan = 0 ∧ answer.error = some (.notLeader "" "")) &&
      first.proposals.any (fun proposal =>
        proposal.node = "a" ∧ proposal.chan = 0 ∧ proposal.entry = putEntry) &&
      (play trioSetting Reliable first revived).any fun second =>
        second.holdsAt "b" fun p =>
          putEntry ∈ p.node.fullLog.take p.node.commitIndex ∧ putEntry ∈ p.node.history) =
            true := by
    decide +kernel
  rcases play_any played with ⟨first, before, checked⟩
  simp only [Bool.and_eq_true] at checked
  rcases checked with ⟨⟨told, made⟩, later⟩
  rcases List.any_eq_true.mp told with ⟨answer, member, fields⟩
  rcases List.any_eq_true.mp made with ⟨proposal, known, own⟩
  rcases play_any later with ⟨second, after, held⟩
  rcases holdsAt_proc held with ⟨p, live, applied⟩
  simp only [decide_eq_true_eq] at fields own applied
  refine ⟨first, second, answer, proposal, p, before, after, member, ⟨"", "", fields.2.2⟩, known,
    own.1.trans fields.1.symm, own.2.1.trans fields.2.1.symm, live, ?_, ?_⟩
  · rw [own.2.2]
    exact applied.1
  · rw [own.2.2]
    exact applied.2

end Cluster

end GoRaftKV.Raft
