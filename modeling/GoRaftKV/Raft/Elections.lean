import GoRaftKV.Raft.ClusterSteps
import GoRaftKV.Raft.HostVotes

namespace GoRaftKV.Raft

open Storage Library

namespace Setting

variable {setting : Setting} {id : NodeId}

def Quorum (setting : Setting) (voters : Finset NodeId) : Prop :=
  voters ⊆ setting.peers ∧ setting.peers.card < 2 * voters.card

theorem Quorum.meet {first second : Finset NodeId} (left : setting.Quorum first)
    (right : setting.Quorum second) : ∃ v, v ∈ first ∧ v ∈ second := by
  have large : setting.peers.card < first.card + second.card := by
    have half := left.2
    have other := right.2
    omega
  rcases Finset.inter_nonempty_of_card_lt_card_add_card left.1 right.1 large with ⟨v, member⟩
  exact ⟨v, Finset.mem_inter.mp member⟩

theorem named_of_member (member : id ∈ setting.members) : id ≠ "" := (Finset.mem_erase.mp member).1

theorem mem_peers (member : id ∈ setting.members) : id ∈ setting.peers :=
  (Finset.mem_erase.mp member).2

theorem peerAddrs_eq : (setting.config id).peerAddrs = setting.peers.erase id := by
  rw [Config.peerAddrs, setting.config_id, setting.config_peers]

/-- A node and the peers it has counted are a quorum once the count reaches `quorum()`. -/
theorem quorum_counted (member : id ∈ setting.members) {counted : Finset NodeId}
    (peers : counted ⊆ (setting.config id).peerAddrs)
    (enough : (setting.config id).quorum ≤ 1 + counted.card) :
    setting.Quorum (insert id counted) := by
  rw [Config.quorum] at enough
  rw [peerAddrs_eq] at peers enough
  have own : id ∉ counted := fun inside => Finset.notMem_erase id _ (peers inside)
  have total := Finset.card_erase_add_one (mem_peers member)
  constructor
  · apply Finset.insert_subset (mem_peers member)
    exact peers.trans (Finset.erase_subset id _)
  · rw [Finset.card_insert_of_notMem own]
    omega

end Setting

namespace Cluster

/-- On record, `voter` has voted in `term` for `candidate`. -/
def Cast (w : Cluster) (voter : NodeId) (term : Nat) (candidate : NodeId) : Prop :=
  (∃ number resp sender req issued, (number, .vote resp) ∈ w.replies ∧ resp.voteGranted = true ∧
    w.calls[number]? = some ⟨sender, voter, .vote req, issued⟩ ∧ req.term = term ∧
    req.candidateID = candidate) ∨
  ∃ campaign ∈ w.campaigns, campaign.node = voter ∧ campaign.request.term = term ∧ voter = candidate

/-- Some campaign of `id` in `term` has received enough votes. -/
def Won (w : Cluster) (setting : Setting) (id : NodeId) (term : Nat) : Prop :=
  ∃ campaign ∈ w.campaigns, campaign.node = id ∧ campaign.request.term = term ∧
    (setting.config campaign.node).quorum ≤ 1 + (w.granted setting campaign).card

def candidacy (setting : Setting) : Ledger where
  call := fun call => ∀ req, call.request = .vote req → req.candidateID ∈ setting.members
  reply := fun _ _ => True
  campaign := fun campaign =>
    campaign.node ∈ setting.members ∧ campaign.request.candidateID = campaign.node
  stream := fun _ => True

/-- Every vote on record still binds its voter, no voter has two in one term, and every leader has
won its term. -/
structure Voting (setting : Setting) (w : Cluster) : Prop where
  filed : w.Filed
  ledger : (candidacy setting).Holds w
  honored : ∀ voter term candidate, w.Cast voter term candidate →
    (w.hosts voter).Honors term candidate
  unique : ∀ voter term first second, w.Cast voter term first → w.Cast voter term second →
    first = second
  leads : ∀ id p, (w.hosts id).proc = some p → p.node.role = .leader →
    w.Won setting id p.node.currentTerm

variable {setting : Setting} {w next : Cluster} {event : Event} {task : Task}

theorem mem_granted {campaign : Campaign} {peer : NodeId}
    (member : peer ∈ w.granted setting campaign) :
    ∃ number resp issued, (number, .vote resp) ∈ w.replies ∧ resp.voteGranted = true ∧
      w.calls[number]? = some ⟨campaign.node, peer, .vote campaign.request, issued⟩ := by
  simp only [granted, Finset.mem_filter, List.any_eq_true] at member
  rcases member with ⟨-, ⟨number, resp⟩, replied, counts⟩
  simp only at counts
  split at counts
  · rename_i call vote found
    rcases call with ⟨sender, receiver, request, issued⟩
    simp only [decide_eq_true_eq] at counts
    rcases counts with ⟨rfl, rfl, rfl, yes⟩
    exact ⟨number, vote, issued, replied, yes, found⟩
  · cases counts

theorem granted_of_reply {campaign : Campaign} {peer : NodeId} {number issued : Nat}
    {resp : RequestVoteResponse} (remote : peer ∈ (setting.config campaign.node).peerAddrs)
    (replied : (number, .vote resp) ∈ w.replies) (yes : resp.voteGranted = true)
    (found : w.calls[number]? = some ⟨campaign.node, peer, .vote campaign.request, issued⟩) :
    peer ∈ w.granted setting campaign := by
  simp only [granted, Finset.mem_filter, List.any_eq_true]
  refine ⟨remote, (number, .vote resp), replied, ?_⟩
  simp only [found, yes, and_self, decide_true]

theorem granted_subset (campaign : Campaign) :
    w.granted setting campaign ⊆ (setting.config campaign.node).peerAddrs :=
      Finset.filter_subset _ _

theorem Grows.granted (grows : Grows w next) (campaign : Campaign) :
    w.granted setting campaign ⊆ next.granted setting campaign := by
  intro peer member
  have remote := granted_subset campaign member
  rcases mem_granted member with ⟨number, resp, issued, replied, yes, found⟩
  exact granted_of_reply remote (grows.replies _ replied) yes (grows.calls _ _ found)

theorem Grows.won (grows : Grows w next) {id : NodeId} {term : Nat} (won : w.Won setting id term) :
    next.Won setting id term := by
  rcases won with ⟨campaign, member, node, current, enough⟩
  refine ⟨campaign, grows.campaigns _ member, node, current, enough.trans ?_⟩
  exact Nat.add_le_add_left (Finset.card_le_card (grows.granted campaign)) 1

theorem Won.electors (ledger : (candidacy setting).Holds w) {id : NodeId} {term : Nat}
    (won : w.Won setting id term) :
    ∃ electors, setting.Quorum electors ∧ ∀ v ∈ electors, w.Cast v term id := by
  rcases won with ⟨campaign, member, rfl, rfl, enough⟩
  rcases ledger.campaigns campaign member with ⟨belongs, named⟩
  refine ⟨insert campaign.node (w.granted setting campaign), ?_, ?_⟩
  · exact Setting.quorum_counted belongs (granted_subset campaign) enough
  · intro v counted
    rcases Finset.mem_insert.mp counted with rfl | granted
    · exact Or.inr ⟨campaign, member, rfl, rfl, rfl⟩
    · rcases mem_granted granted with ⟨number, resp, issued, replied, yes, found⟩
      exact Or.inl ⟨number, resp, _, _, issued, replied, yes, found, rfl, named⟩

theorem Voting.winner (voting : Voting setting w) {id other : NodeId} {term : Nat}
    (first : w.Won setting id term) (second : w.Won setting other term) : id = other := by
  rcases first.electors voting.ledger with ⟨electors, quorum, votes⟩
  rcases second.electors voting.ledger with ⟨others, otherQuorum, otherVotes⟩
  rcases quorum.meet otherQuorum with ⟨v, inFirst, inSecond⟩
  exact voting.unique v term id other (votes v inFirst) (otherVotes v inSecond)

theorem Cast.named (ledger : (candidacy setting).Holds w) {voter candidate : NodeId} {term : Nat}
    (cast : w.Cast voter term candidate) : candidate ≠ "" := by
  rcases cast with ⟨number, resp, sender, req, issued, -, -, found, -, rfl⟩ | ⟨campaign, member,
    rfl, -, rfl⟩
  · exact Setting.named_of_member (ledger.calls _ (List.mem_of_getElem? found) req rfl)
  · exact Setting.named_of_member (ledger.campaigns campaign member).1

theorem cast_serve (ledger : (candidacy setting).Holds w) (asked : w.Asked setting task)
    {voter candidate : NodeId} {term : Nat}
    (cast : (w.serve setting task).Cast voter term candidate) :
    w.Cast voter term candidate ∨
      (voter = task.node ∧ (w.outcome setting task).1.Voted term candidate) := by
  have grows : Grows w (w.serve setting task) := serve_grows
  rcases cast with ⟨number, resp, sender, req, issued, replied, yes, found, current, named⟩ | stood
  · rcases record_reply replied with
      old | ⟨rfl, ⟨vote, same, output⟩ | ⟨append, same, -⟩⟩ | ⟨snapshot, same, -⟩
    · rcases ledger.replies number _ old with ⟨call, known, -⟩
      have call_eq : call = ⟨sender, voter, .vote req, issued⟩ :=
        Option.some.inj ((grows.calls number call known).symm.trans found)
      rw [call_eq] at known
      exact Or.inl (Or.inl ⟨number, resp, sender, req, issued, old, yes, known, current, named⟩)
    · cases same
      rcases Host.step_voted output yes with ⟨asking, action, voted⟩
      simp only [Asked, action] at asked
      rcases asked with ⟨from_, at_, known⟩
      cases Option.some.inj ((grows.calls task.call _ known).symm.trans found)
      rw [← current, ← named]
      exact Or.inr ⟨rfl, voted⟩
    · cases same
    · cases same
  · rcases stood with ⟨campaign, member, node, current, same⟩
    rcases record_campaign member with old | ⟨output, own⟩
    · exact Or.inl (Or.inr ⟨campaign, old, node, current, same⟩)
    · rcases Host.step_stood output with ⟨-, voted⟩
      rw [setting.config_id, current] at voted
      rw [← same, ← node, own]
      exact Or.inr ⟨rfl, voted⟩

theorem cast_client (ledger : (candidacy setting).Holds w) {mid : Cluster}
    (handled : w.client setting event = some mid) {voter candidate : NodeId} {term : Nat}
    (cast : mid.Cast voter term candidate) : w.Cast voter term candidate := by
  have grows := client_grows handled
  rcases client_replies handled with ⟨replies, campaigns⟩
  rcases cast with ⟨number, resp, sender, req, issued, replied, yes, found, current, named⟩ | stood
  · rw [replies] at replied
    rcases ledger.replies number _ replied with ⟨call, known, -⟩
    have call_eq : call = ⟨sender, voter, .vote req, issued⟩ :=
      Option.some.inj ((grows.calls number call known).symm.trans found)
    rw [call_eq] at known
    exact Or.inl ⟨number, resp, sender, req, issued, replied, yes, known, current, named⟩
  · rw [campaigns] at stood
    exact Or.inr stood

theorem cast_step (ledger : (candidacy setting).Holds w) (taken : w.step setting event = some next)
    {voter candidate : NodeId} {term : Nat} (cast : next.Cast voter term candidate) :
    w.Cast voter term candidate ∨ (next.hosts voter).Voted term candidate := by
  rcases step_cases taken with ⟨task, ran, -, rfl⟩ | ⟨mid, handled, rfl⟩
  · rcases cast_serve ledger (server_asked ran) cast with old | ⟨rfl, voted⟩
    · exact Or.inl old
    · have hosts : (w.serve setting task).tick.hosts = _ := serve_hosts
      rw [hosts, Function.update_self]
      exact Or.inr voted
  · exact Or.inl (cast_client ledger handled cast)

theorem unwrapped_of_server (ran : w.server setting event = some task)
    (admitted : w.Unwrapped event) :
    ∀ p, (w.hosts task.node).proc = some p → task.action = .startElection →
      p.node.currentTerm + 1 < uint64Size := by
  -- The only campaigns that begin are elections whose term counter does not wrap.
  intro p live stands
  cases event with
  | campaign id fates =>
      cases ran
      exact admitted p live
  | «local» id action fates =>
      simp only [server] at ran
      split at ran
      · rename_i own
        cases ran
        cases stands
        cases own
      · cases ran
  | deliver number fates =>
      simp only [server] at ran
      split at ran
      · rename_i call found
        cases ran
        simp only [Request.action] at stands
        split at stands <;> cases stands
      · cases ran
  | reply number fates =>
      simp only [server] at ran
      split at ran
      · split at ran
        · simp only [Option.map_eq_some_iff] at ran
          rcases ran with ⟨action, answers, rfl⟩
          simp only at stands
          subst stands
          simp only [Call.replied] at answers
          repeat' split at answers
          all_goals cases answers
        · cases ran
      · cases ran
  | cancel id chan =>
      simp only [server, Option.map_eq_some_iff] at ran
      rcases ran with ⟨made, -, rfl⟩
      cases stands
  | _ =>
      simp only [server] at ran
      repeat' split at ran
      all_goals cases ran
      all_goals cases stands

theorem host_honors (taken : w.step setting event = some next) (admitted : w.Unwrapped event)
    {id candidate : NodeId} {term : Nat} (named : candidate ≠ "")
    (honors : (w.hosts id).Honors term candidate) : (next.hosts id).Honors term candidate := by
  rcases step_host taken id with same | ⟨task, ran, rfl, -, stepped⟩
  · rw [same]
    exact honors
  · rw [stepped]
    exact Host.step_honors (unwrapped_of_server ran admitted) named honors

theorem candidacy_step (filed : w.Filed) (ledger : (candidacy setting).Holds w)
    (taken : w.step setting event = some next) : (candidacy setting).Holds next := by
  apply ledger.step taken
  · intro task ran member
    refine ⟨?_, ?_, ?_, fun _ _ _ _ _ => trivial⟩
    · intro number resp output
      rcases filed.replied (server_asked ran) output with ⟨call, found, -⟩
      exact ⟨call, found, trivial⟩
    · intro req output
      rcases Host.step_stood output with ⟨named, -⟩
      rw [setting.config_id] at named
      exact ⟨member, named⟩
    · intro peer req issued _ other same
      cases same
  · intro campaign peer issued known remote req same
    cases same
    rw [known.2]
    exact known.1
  · intro stream offset issued known bound req same
    cases same

theorem leads_step (voting : Voting setting w) (taken : w.step setting event = some next)
    (admitted : w.Unwrapped event) {id : NodeId} {q : Proc} (alive : (next.hosts id).proc = some q)
    (leads : q.node.role = .leader) : w.Won setting id q.node.currentTerm := by
  rcases step_host taken id with same | ⟨task, ran, rfl, -, stepped⟩
  · rw [same] at alive
    exact voting.leads id q alive leads
  · rw [stepped] at alive
    rcases Host.step_leads (unwrapped_of_server ran admitted) alive leads with
      ⟨p, live, led, current⟩ | crowned
    · rw [current]
      exact voting.leads task.node p live led
    · have asked := server_asked ran
      simp only [Asked, crowned] at asked
      exact asked

theorem Voting.step (voting : Voting setting w) (taken : w.step setting event = some next)
    (admitted : w.Unwrapped event) : Voting setting next where
  filed := voting.filed.step taken
  ledger := candidacy_step voting.filed voting.ledger taken
  honored := by
    intro voter term candidate cast
    rcases cast_step voting.ledger taken cast with old | voted
    · have honors := voting.honored voter term candidate old
      exact host_honors taken admitted (old.named voting.ledger) honors
    · exact voted.honors
  unique := by
    intro voter term first second one two
    have bound (candidate : NodeId) (old : w.Cast voter term candidate) :
        (next.hosts voter).Honors term candidate :=
      host_honors taken admitted (old.named voting.ledger) (voting.honored voter term candidate old)
    rcases cast_step voting.ledger taken one with oldOne | newOne
    · rcases cast_step voting.ledger taken two with oldTwo | newTwo
      · exact voting.unique voter term first second oldOne oldTwo
      · exact (newTwo.unique (bound first oldOne)).symm
    · rcases cast_step voting.ledger taken two with oldTwo | newTwo
      · exact newOne.unique (bound second oldTwo)
      · exact newOne.unique newTwo.honors
  leads := by
    intro id q alive leads
    exact (step_grows taken).won (leads_step voting taken admitted alive leads)

theorem voting_initial : Voting setting initial where
  filed := by
    intro id p number req body live
    cases live
  ledger := ⟨by simp [initial], by simp [initial], by simp [initial], by simp [initial]⟩
  honored := by
    intro voter term candidate cast
    simp [Cast, initial] at cast
  unique := by
    intro voter term first second cast
    simp [Cast, initial] at cast
  leads := by
    intro id p live
    cases live

theorem voting_of_run (run : Run setting Unwrapped initial w) : Voting setting w := by
  induction run with
  | refl => exact voting_initial
  | tail _ step ih =>
      rcases step with ⟨event, next, admitted, taken⟩
      exact ih.step taken admitted

theorem won_of_run {allowed : Cluster → Event → Prop} (run : Run setting allowed w next)
    {id : NodeId} {term : Nat} (won : w.Won setting id term) : next.Won setting id term := by
  induction run with
  | refl => exact won
  | tail _ step ih =>
      rcases step with ⟨event, next, admitted, taken⟩
      exact (step_grows taken).won ih

/-- Two processes that lead the same term, now or at different times of one run, are on one node. -/
theorem leader_unique {first second : Cluster} (before : Run setting Unwrapped initial first)
    (after : Run setting Unwrapped first second) {id other : NodeId} {p q : Proc}
    (live : (first.hosts id).proc = some p) (leads : p.node.role = .leader)
    (alive : (second.hosts other).proc = some q) (also : q.node.role = .leader)
    (same : p.node.currentTerm = q.node.currentTerm) : id = other := by
  have whole : Run setting Unwrapped initial second := before.trans after
  have voting := voting_of_run whole
  have earlier : second.Won setting id p.node.currentTerm :=
    won_of_run after ((voting_of_run before).leads id p live leads)
  have later : second.Won setting other p.node.currentTerm := by
    rw [same]
    exact voting.leads other q alive also
  exact voting.winner earlier later

end Cluster

def trioSetting : Setting where
  peers := {"a", "b", "c"}
  config := trio
  codec := SnapshotJson.codec
  config_id := fun _ => rfl
  config_peers := fun _ => rfl

namespace Cluster

/-- `a` wins term 1: its first attempt and the first vote of `b` are saved but reported as
failures. -/
def contested : List Event :=
  [.local "a" .restart [], .local "b" .restart [], .local "c" .restart [],
   .campaign "a" [.err 1], .campaign "a" [], .solicit 0 "b", .deliver 0 [.ok, .err 1],
   .deliver 0 [], .win 0 []]

def rivalry : List Event := [.campaign "c" [], .solicit 1 "b", .deliver 1 []]

def leadsTerm (term : Nat) (p : Proc) : Bool := p.node.role = .leader ∧ p.node.currentTerm = term

theorem leader_unique_contested : ∃ first second p q,
    Run trioSetting Unwrapped initial first ∧ Run trioSetting Unwrapped first second ∧
    (first.hosts "a").proc = some p ∧ p.node.role = .leader ∧
    (second.hosts "a").proc = some q ∧ q.node.role = .leader ∧
    p.node.currentTerm = q.node.currentTerm ∧ "a" = "a" := by
  have played : (play trioSetting Unwrapped initial contested).any (fun first =>
      first.holdsAt "a" (leadsTerm 1) &&
        (play trioSetting Unwrapped first rivalry).any fun second =>
          second.holdsAt "a" (leadsTerm 1)) = true := by decide +kernel
  rcases play_any played with ⟨first, before, checked⟩
  simp only [Bool.and_eq_true] at checked
  rcases play_any checked.2 with ⟨second, after, later⟩
  rcases holdsAt_proc checked.1 with ⟨p, live, leads⟩
  rcases holdsAt_proc later with ⟨q, alive, also⟩
  simp only [leadsTerm, decide_eq_true_eq] at leads also
  have same : p.node.currentTerm = q.node.currentTerm := leads.2.trans also.2.symm
  exact ⟨first, second, p, q, before, after, live, leads.1, alive, also.1, same,
    leader_unique before after live leads.1 alive also.1 same⟩

end Cluster

end GoRaftKV.Raft
