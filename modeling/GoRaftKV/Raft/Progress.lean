import GoRaftKV.Raft.Agreement
import GoRaftKV.Raft.BackOff
import GoRaftKV.Raft.Slots

/-! What a leader knows about a peer, with any number of calls to that peer in flight. -/

namespace GoRaftKV.Raft

open Storage Library Program

namespace Node

variable {cfg : Config} {n m k : Node} {action : Action}

/-- Next comes an entry that the peer has not acknowledged, at the latest the one after the log. -/
def Paced (n : Node) (cfg : Config) : Prop :=
  n.role = .leader → ∀ peer ∈ cfg.peerAddrs,
    n.matchIndex peer < n.nextIndex peer ∧ n.nextIndex peer ≤ n.lastIndexLocked + 1

/-- A leader after a section: no acknowledgement is forgotten, and `nextIndex` is beyond all of
them. -/
def Progressed (cfg : Config) (n m : Node) : Prop :=
  m.role = .leader → ∀ peer ∈ cfg.peerAddrs,
    (n.role = .leader → n.matchIndex peer ≤ m.matchIndex peer) ∧
      m.matchIndex peer < m.nextIndex peer ∧ m.nextIndex peer ≤ n.lastIndexLocked + 1

/-- What a section learns about a peer fits the log, and no refusal contradicts an
acknowledgement. -/
def Informed (n : Node) (cfg : Config) : Action → Prop
  | .replicate peer => peer ∈ cfg.peerAddrs
  | .replicateReply peer req resp => n.role = .leader → n.currentTerm = req.term →
      (resp.success = true → req.prevLogIndex + req.entries.length ≤ n.lastIndexLocked) ∧
      (resp.success = false → 0 < resp.conflictIndex →
        n.matchIndex peer < resp.conflictIndex ∧ resp.conflictIndex ≤ n.lastIndexLocked + 1)
  | .snapshotSent _ term snapIdx =>
      n.role = .leader → n.currentTerm = term → snapIdx ≤ n.lastIndexLocked
  | _ => True

theorem Paced.same (paced : n.Paced cfg) (leads : m.role = .leader → n.role = .leader)
    (next : ∀ peer ∈ cfg.peerAddrs, m.nextIndex peer = n.nextIndex peer)
    (matched : ∀ peer ∈ cfg.peerAddrs, m.matchIndex peer = n.matchIndex peer) :
    Progressed cfg n m := by
  intro role peer member
  rw [next peer member, matched peer member]
  exact ⟨fun _ => le_rfl, paced (leads role) peer member⟩

theorem Progressed.stepped (stepped : m.role ≠ .leader) : Progressed cfg n m :=
  fun leads => absurd leads stepped

theorem Config.ne_of_peerAddrs {peer : NodeId} (member : peer ∈ cfg.peerAddrs) : peer ≠ cfg.id :=
  (Finset.mem_erase.mp member).1

theorem Progressed.framed (progressed : Progressed cfg n m) (frame : Frame cfg action m k)
    (untracked : action.tracks = false) : Progressed cfg n k := by
  intro leads peer member
  rcases frame.leads (Action.crowns_of_tracks untracked) leads with ⟨led, -⟩
  rcases frame.peers untracked leads peer (Config.ne_of_peerAddrs member) with ⟨next, matched⟩
  rw [next, matched]
  exact progressed led peer member

theorem acknowledge_progressed (paced : n.Paced cfg) (peer : NodeId) {index : Nat}
    (bound : index ≤ n.lastIndexLocked) : Progressed cfg n (n.acknowledge peer index) := by
  intro leads other member
  rcases paced leads other member with ⟨before, inside⟩
  by_cases same : other = peer
  · rw [← same]
    simp only [acknowledge, Function.update_self]
    omega
  · simp only [acknowledge, Function.update_of_ne same]
    exact ⟨fun _ => le_rfl, before, inside⟩

theorem replicateReply_progressed {peer : NodeId} {req : AppendEntriesRequest}
    {resp : AppendEntriesResponse} (paced : n.Paced cfg)
    (informed : n.Informed cfg (.replicateReply peer req resp)) :
    (n.replicateReply cfg peer req resp).All fun r => Progressed cfg n r.1 := by
  have idle : Progressed cfg n n := paced.same id (fun _ _ => rfl) (fun _ _ => rfl)
  unfold replicateReply
  split
  · refine All.bind (becomeFollowerLocked_all ?_ ?_)
    · apply Progressed.stepped
      rw [(steppedDown_eq n cfg resp.term "").1]
      decide
    · exact Progressed.stepped (by rintro ⟨⟩)
  split
  · exact idle
  rename_i ours
  push Not at ours
  rcases informed ours.1 ours.2 with ⟨inside, beyond⟩
  split
  · rename_i success
    have acked : Progressed cfg n (n.acknowledge peer (req.prevLogIndex + req.entries.length)) :=
      acknowledge_progressed paced peer (inside success)
    exact All.bind ((@advanceCommitLocked_frame cfg .startElection _).mono fun m frame =>
      acked.framed frame rfl)
  rename_i failed
  split
  · rename_i conflict
    rcases beyond (Bool.eq_false_of_not_eq_true failed) conflict with ⟨later, bound⟩
    intro leads other member
    by_cases same : other = peer
    · rw [same]
      simp only [Function.update_self]
      exact ⟨fun _ => le_rfl, later, bound⟩
    · simp only [Function.update_of_ne same]
      exact ⟨fun _ => le_rfl, paced leads other member⟩
  · exact idle

theorem becomeLeader_progressed (paced : n.Paced cfg) (term : Nat) :
    (n.becomeLeader cfg term).All fun m => Progressed cfg n m := by
  unfold becomeLeader
  split
  · exact paced.same id (fun _ _ => rfl) (fun _ _ => rfl)
  · rename_i eligible
    push Not at eligible
    simp only [perform_bind, all_call]
    constructor
    · have crowned : Progressed cfg n ((n.leading cfg).withNoop cfg
          { index := n.lastIndexLocked + 1, term := term, command := { op := .noop } }) := by
        intro _ peer member
        have other := Config.ne_of_peerAddrs member
        simp only [withNoop, leading, Function.update_of_ne other, if_pos (Or.inr member)]
        refine ⟨fun leads => ?_, Nat.succ_pos _, le_rfl⟩
        rw [leads] at eligible
        cases eligible.2.1
      exact (@advanceCommitLocked_frame cfg .startElection _).mono fun m frame =>
        crowned.framed frame rfl
    · exact Progressed.stepped (by rintro ⟨⟩)

theorem advanceCommitLocked_last :
    (n.advanceCommitLocked cfg).All fun m => m.lastIndexLocked = n.lastIndexLocked := by
  unfold advanceCommitLocked
  split
  · rfl
  · simp only [persistHardStateLocked, saveHardStateLocked, perform_bind, all_call]
    exact ⟨rfl, rfl⟩

theorem becomeLeader_longer (term : Nat) :
    (n.becomeLeader cfg term).All fun m => n.lastIndexLocked ≤ m.lastIndexLocked := by
  unfold becomeLeader
  split
  · exact le_rfl
  · simp only [perform_bind, all_call]
    constructor
    · refine advanceCommitLocked_last.mono fun m same => ?_
      rw [same]
      simp [withNoop, lastIndexLocked, lastIndex]
    · exact le_rfl

theorem replicateToPeer_progressed (contiguous : Contiguous n.snapshot.lastIncludedIndex n.log)
    (paced : n.Paced cfg) {peer : NodeId} (member : peer ∈ cfg.peerAddrs) :
    Progressed cfg n (n.replicateToPeer cfg peer).1 := by
  -- A leader that is well paced has the entry before the next one, so an attempt changes nothing.
  have idle : Progressed cfg n n := paced.same id (fun _ _ => rfl) (fun _ _ => rfl)
  by_cases eligible : n.stopped = true ∨ n.role ≠ .leader
  · simp only [replicateToPeer, if_pos eligible]
    exact idle
  push Not at eligible
  have running := Bool.eq_false_of_not_eq_true eligible.1
  rcases paced eligible.2 peer member with ⟨before, inside⟩
  rcases Nat.lt_or_ge n.snapshot.lastIncludedIndex (n.nextIndex peer) with after | compacted
  · obtain ⟨prev, next⟩ : ∃ prev, n.nextIndex peer = prev + 1 := ⟨n.nextIndex peer - 1, by omega⟩
    obtain ⟨prevTerm, _, sends⟩ : ∃ prevTerm, n.termAtLocked prev = some prevTerm ∧
        n.replicateToPeer cfg peer = (n, .append (n.appendRequest cfg prev prevTerm)) :=
      replicateToPeer_append contiguous eligible.2 running next (by omega) (by omega)
    rw [sends]
    exact idle
  · rw [replicateToPeer_compacted eligible.2 running (by omega) compacted]
    exact idle

theorem snapshotSent_progressed {peer : NodeId} {term snapIdx : Nat} (paced : n.Paced cfg)
    (informed : n.Informed cfg (.snapshotSent peer term snapIdx)) :
    Progressed cfg n (n.snapshotSent peer term snapIdx) := by
  unfold snapshotSent
  split
  · rename_i ours
    exact acknowledge_progressed paced peer (informed ours.1 ours.2)
  · exact paced.same id (fun _ _ => rfl) (fun _ _ => rfl)

def HintBound (n : Node) (req : AppendEntriesRequest) (hint : Nat) : Prop :=
  hint ≤ max n.commitIndex req.prevLogIndex + 1

variable {req : AppendEntriesRequest}

theorem commitTo_hint (newCommit : Nat) :
    (n.commitTo newCommit).All fun r => k.HintBound req r.2.conflictIndex := by
  unfold commitTo
  split
  · simp only [persistHardStateLocked, saveHardStateLocked, perform_bind, all_call]
    exact ⟨Nat.zero_le _, Nat.zero_le _⟩
  · exact Nat.zero_le _

theorem spliceEntries_hint (wf : WellFormed n)
    (compacted : n.snapshot.lastIncludedIndex ≤ req.prevLogIndex)
    (previous : n.termAtLocked req.prevLogIndex = some req.prevLogTerm)
    (ordered : Contiguous req.prevLogIndex req.entries) :
    (n.spliceEntries cfg req).All fun r => n.HintBound req r.2.conflictIndex := by
  have bound := termAtLocked_bound wf.contiguous compacted previous
  have valid : n.validateEntriesLocked req.prevLogIndex req.entries = 0 :=
    validateFrom_ordered compacted ordered
  have fresh : Contiguous req.prevLogIndex (n.uncovered req.entries) := by
    rw [uncovered_all ordered compacted]
    exact ordered
  have merged := @mergeLoop_merged n wf.contiguous req.prevLogIndex
    { lastNewIndex := n.lastNewIndex req.prevLogIndex req.entries } req.entries bound fresh
  simp only [spliceEntries, mergeEntriesLocked, valid, Nat.lt_irrefl, if_false]
  generalize n.mergeLoop _ req.entries = outcome at merged ⊢
  have hinted : n.HintBound req outcome.2.conflictIndex := by
    cases merged with
    | extended more added matching => exact Nat.zero_le _
    | rejected entry after inside conflict committed =>
        exact committed.trans ((le_max_left _ _).trans (Nat.le_succ _))
    | replaced entry front back split suffix after inside matching conflict uncommitted =>
        exact Nat.zero_le _
  split
  · exact hinted
  split
  · simp only [perform_bind, all_call, if_true]
    exact ⟨commitTo_hint _, Nat.zero_le _⟩
  · exact commitTo_hint _

theorem matchEntries_hint (wf : WellFormed n) (ordered : Contiguous req.prevLogIndex req.entries) :
    (n.matchEntries cfg req).All fun r => n.HintBound req r.2.conflictIndex := by
  have compacted := wf.compacted
  have applied := wf.applied
  unfold matchEntries
  simp only
  split
  · change n.snapshot.lastIncludedIndex + 1 ≤ max n.commitIndex req.prevLogIndex + 1
    omega
  rename_i after
  split
  · change conflictIndexLocked { n with leaderID := req.leaderID } req.prevLogIndex ≤
      max n.commitIndex req.prevLogIndex + 1
    rcases Nat.lt_or_ge n.snapshot.lastIncludedIndex req.prevLogIndex with later | same
    · have bounds := conflictIndexLocked_bounds (n := { n with leaderID := req.leaderID })
        wf.contiguous later
      omega
    · unfold conflictIndexLocked
      simp only [if_pos same]
      split
      · omega
      · omega
  rename_i found
  exact spliceEntries_hint (n := { n with leaderID := req.leaderID })
    ⟨wf.contiguous, wf.compacted, wf.applied, wf.committed⟩ (Nat.le_of_not_lt after)
    (not_not.mp found) ordered

theorem handleAppendEntries_hint (wf : WellFormed n)
    (ordered : Contiguous req.prevLogIndex req.entries) :
    (n.handleAppendEntries cfg req).All fun r =>
      0 < r.2.conflictIndex → n.currentTerm ≤ req.term ∧ n.HintBound req r.2.conflictIndex := by
  unfold handleAppendEntries
  simp only
  split
  · exact fun hinted => absurd hinted (Nat.lt_irrefl 0)
  split
  · exact fun hinted => absurd hinted (Nat.lt_irrefl 0)
  split
  · exact fun hinted => absurd hinted (Nat.lt_irrefl 0)
  rename_i current
  have accepted := Nat.le_of_not_lt current
  split
  · refine All.bind (becomeFollowerLocked_all ?_ ?_)
    · have follows : WellFormed (n.steppedDown cfg req.term req.leaderID) :=
        ((Move.follow n req.term req.leaderID).upholds wf).wellFormed
      refine (matchEntries_hint follows ordered).mono fun r hinted _ => ⟨accepted, ?_⟩
      unfold HintBound at hinted ⊢
      rw [steppedDown_commitIndex] at hinted
      exact hinted
    · exact fun hinted => absurd hinted (Nat.lt_irrefl 0)
  · exact (matchEntries_hint wf ordered).mono fun r hinted _ => ⟨accepted, hinted⟩

end Node

theorem Host.step_progressed {cfg : Config} {codec : SnapshotCodec} {host : Host} {p q : Proc}
    {fates : List Fate} {action : Action} (live : host.proc = some p)
    (contiguous : Contiguous p.node.snapshot.lastIncludedIndex p.node.log)
    (paced : p.node.Paced cfg) (informed : p.node.Informed cfg action)
    (alive : (host.step cfg codec fates action).1.proc = some q) :
    Node.Progressed cfg p.node q.node := by
  have idle : Node.Progressed cfg p.node p.node := paced.same id (fun _ _ => rfl) (fun _ _ => rfl)
  cases tracks : action.tracks with
  | false => exact idle.framed (Host.step_frame live alive) tracks
  | true =>
      simp only [Host.step, live] at alive
      cases action with
      | becomeLeader term =>
          rcases run_alive (Node.becomeLeader_progressed paced term) alive with
            ⟨value, progressed, same, -⟩
          cases same
          exact progressed
      | replicateReply peer req resp =>
          rcases run_alive (Node.replicateReply_progressed paced informed) alive with
            ⟨value, progressed, same, -⟩
          cases same
          exact progressed
      | replicate peer =>
          cases alive
          exact Node.replicateToPeer_progressed contiguous paced informed
      | snapshotSent peer term snapIdx =>
          cases alive
          exact Node.snapshotSent_progressed paced informed
      | _ => cases tracks

/-- No refusal points beyond the log of the leader that it is for. -/
def hinted (a : Ideal) : Ledger where
  call _ := True
  reply call resp :=
    match call.request, resp with
    | .append req, .append resp => resp.conflictIndex ≤ (a.leaderLog req.term).length + 1
    | _, _ => True
  campaign _ := True
  stream _ := True

theorem hinted_mono {a b : Ideal} {w : Cluster} (grows : Consensus.Extends a b)
    (holds : (hinted a).Holds w) :
    (hinted b).Holds w where
  calls := holds.calls
  replies := by
    intro number resp member
    rcases holds.replies number resp member with ⟨call, found, known⟩
    refine ⟨call, found, ?_⟩
    unfold hinted at known ⊢
    simp only at known ⊢
    split
    · rename_i req resp request
      rw [request] at known
      exact known.trans (Nat.succ_le_succ (grows.leaderLog req.term).length_le)
    · trivial
  campaigns := holds.campaigns
  streams := holds.streams

namespace Cluster

variable {setting : Setting} {w next : Cluster} {a : Ideal} {event : Event} {task : Task}
  {id : NodeId}

/-- No leader takes in a refusal at or below what it knows the peer to have acknowledged. -/
def Prompt (setting : Setting) (w : Cluster) (event : Event) : Prop :=
  match w.server setting event with
  | some ⟨id, .replicateReply peer req resp, _, _⟩ =>
      match (w.hosts id).proc with
      | some p =>
          p.node.role = .leader → p.node.currentTerm = req.term → resp.success = false →
            0 < resp.conflictIndex → p.node.matchIndex peer < resp.conflictIndex
      | none => True
  | _ => True

instance (w : Cluster) (event : Event) : Decidable (w.Prompt setting event) := by
  unfold Prompt
  split
  · split <;> infer_instance
  · infer_instance

theorem Realizes.leaderLog {p : Proc} (realizes : w.Realizes setting a)
    (live : (w.hosts id).proc = some p) (leads : p.node.role = .leader) :
    p.node.lastIndexLocked = (a.leaderLog p.node.currentTerm).length := by
  have own := (realizes.proc live).node
  rcases realizes.inv.leads id (own.role.trans leads) with ⟨won, -, -, log⟩
  rw [own.whole.lastIndex, ← own.log, log, own.term]

theorem Realizes.committedInside {p : Proc} (realizes : w.Realizes setting a)
    (live : (w.hosts id).proc = some p) {term : Nat} (current : p.node.currentTerm ≤ term)
    (led : (a.election term).isSome) :
    p.node.commitIndex ≤ (a.leaderLog term).length := by
  have own := (realizes.proc live).node
  have chosen := own.committed
  rw [own.term] at chosen
  have inside :=
    realizes.inv.chosenPrefix (fun first second => @Setting.Quorum.meet setting first second)
      (chosen.mono (.refl a) current) led
  have reach := own.wf.committed
  rw [own.whole.lastIndex] at reach
  have length := inside.length_le
  rwa [List.length_take, min_eq_left reach] at length

theorem Realizes.hint (realizes : w.Realizes setting a) {req : AppendEntriesRequest}
    {resp : AppendEntriesResponse} (action : task.action = .appendEntries req)
    (follows : req.Follows a) (answered : (w.outcome setting task).2 = .append resp) :
    resp.conflictIndex ≤ (a.leaderLog req.term).length + 1 := by
  rcases Nat.eq_zero_or_pos resp.conflictIndex with none | positive
  · omega
  unfold outcome at answered
  simp only [action] at answered
  cases live : (w.hosts task.node).proc with
  | none =>
      simp only [Host.step, live] at answered
      cases answered
  | some p =>
      simp only [Host.step, live, Proc.step] at answered
      have spoken : (Host.run (w.hosts task.node)
          (p.node.handleAppendEntries (setting.config task.node) req) task.fates fun r =>
          ((w.hosts task.node).withNode p r.1, .append r.2)).2 ≠ .nothing := by
        rw [answered]
        rintro ⟨⟩
      rcases Host.run_done spoken with ⟨value, disk, ran, ends⟩
      rw [ends] at answered
      cases answered
      have every : (p.node.handleAppendEntries (setting.config task.node) req).All fun r =>
          0 < r.2.conflictIndex → p.node.currentTerm ≤ req.term ∧
            p.node.HintBound req r.2.conflictIndex :=
        Node.handleAppendEntries_hint (realizes.proc live).node.wf follows.ordered
      rcases every.exec ran positive with ⟨current, bound⟩
      have committed := realizes.committedInside live current follows.led
      have reach := follows.reach
      unfold Node.HintBound at bound
      omega

theorem Realizes.hints (realizes : w.Realizes setting a) (asked : w.Asked setting task) :
    (hinted a).Admits w task (w.outcome setting task).2 where
  replied := by
    intro number resp replied
    rcases realizes.filed.replied asked replied with ⟨call, found, -⟩
    refine ⟨call, found, ?_⟩
    unfold hinted
    simp only
    split
    · rename_i req resp request
      have ⟨answered, same⟩ : (w.outcome setting task).2 = .append resp ∧ number = task.call := by
        generalize (w.outcome setting task).2 = output at replied ⊢
        cases output <;> cases replied
        exact ⟨rfl, rfl⟩
      have source : (w.outcome setting task).2.From (w.hosts task.node) task.action :=
        Host.step_from task.action
      rw [answered] at source
      rcases source with ⟨handled, action⟩
      simp only [Asked, action] at asked
      rcases asked with ⟨sender, issued, filed⟩
      rw [same, filed] at found
      cases found
      cases request
      exact realizes.hint action (realizes.holds.calls _ (List.mem_of_getElem? filed)) answered
    · trivial
  stood := fun _ _ => trivial
  appended := fun _ _ _ _ => trivial
  streamed := fun _ _ _ _ _ => trivial

/-- The protocol's account of the cluster, and every leader well paced. -/
structure Paced (w : Cluster) (setting : Setting) (a : Ideal) : Prop where
  realizes : w.Realizes setting a
  hinted : (hinted a).Holds w
  leaders : ∀ id p, (w.hosts id).proc = some p → p.node.Paced (setting.config id)

theorem Paced.informed {p : Proc} (paced : w.Paced setting a) (prompt : w.Prompt setting event)
    (ran : w.server setting event = some task) (live : (w.hosts task.node).proc = some p) :
    p.node.Informed (setting.config task.node) task.action := by
  have asked := server_asked ran
  have meet := fun first second => @Setting.Quorum.meet setting first second
  unfold Node.Informed
  split
  · rename_i peer action
    simp only [Asked, action] at asked
    exact asked
  · rename_i peer req resp action
    simp only [Asked, action] at asked
    rcases asked with ⟨replied, issued, found⟩
    intro leads current
    have last := paced.realizes.leaderLog live leads
    rw [current] at last
    constructor
    · intro _
      have follows : req.Follows a := paced.realizes.holds.calls _ (List.mem_of_getElem? found)
      rw [last]
      exact follows.finish
    · intro failed conflict
      rcases task with ⟨id, taskAction, fates, number⟩
      cases action
      simp only [Prompt, ran, live] at prompt
      refine ⟨prompt leads current failed conflict, ?_⟩
      rcases paced.hinted.replies _ _ replied with ⟨call, same, bound⟩
      rw [found] at same
      cases same
      rw [last]
      exact bound
  · rename_i peer term snapIdx action
    simp only [Asked, action] at asked
    rcases asked with ⟨-, req, issued, same, index, -, found⟩
    intro leads current
    have follows : req.Follows a setting.codec :=
      paced.realizes.holds.calls _ (List.mem_of_getElem? found)
    have inside := (paced.realizes.inv.chosenPrefix meet follows.chosen follows.led).length_le
    rw [paced.realizes.leaderLog live leads, current, ← same, ← index, follows.index]
    exact inside
  · trivial

theorem Realizes.longer {b : Ideal} {p q : Proc} (realizes : w.Realizes setting a)
    (later : next.Realizes setting b) (grows : Consensus.Extends a b)
    (live : (w.hosts task.node).proc = some p)
    (served : next.hosts task.node = (w.outcome setting task).1)
    (alive : (next.hosts task.node).proc = some q) (leads : q.node.role = .leader) :
    p.node.lastIndexLocked ≤ q.node.lastIndexLocked := by
  have ends := alive
  rw [served, outcome] at ends
  cases crowns : task.action.crowns with
  | false =>
      rcases (Host.step_frame live ends).leads crowns leads with ⟨led, term, -⟩
      rw [realizes.leaderLog live led, later.leaderLog alive leads, term]
      exact (grows.leaderLog p.node.currentTerm).length_le
  | true =>
      cases action : task.action with
      | becomeLeader term =>
          simp only [Host.step, live, action] at ends
          rcases Host.run_alive (Node.becomeLeader_longer term) ends with ⟨value, longer, same, -⟩
          cases same
          exact longer
      | _ =>
          rw [action] at crowns
          cases crowns

/-- One event: no leader loses ground. -/
theorem Paced.step (paced : w.Paced setting a) (taken : w.step setting event = some next)
    (reliable : w.Reliable event) (prompt : w.Prompt setting event) :
    ∃ b, Consensus.Extends a b ∧ next.Paced setting b ∧ ∀ id p q, (w.hosts id).proc = some p →
      (next.hosts id).proc = some q → Node.Progressed (setting.config id) p.node q.node := by
  rcases paced.realizes.step taken reliable with ⟨b, grows, realizes⟩
  have progressed : ∀ id p q, (w.hosts id).proc = some p → (next.hosts id).proc = some q →
      Node.Progressed (setting.config id) p.node q.node := by
    intro id p q live alive
    rcases step_host taken id with same | ⟨task, ran, rfl, -, served⟩
    · rw [same, live] at alive
      cases alive
      exact (paced.leaders id p live).same (fun leads => leads) (fun _ _ => rfl) (fun _ _ => rfl)
    · rw [served] at alive
      exact Host.step_progressed live (paced.realizes.proc live).node.wf.contiguous
        (paced.leaders _ p live) (paced.informed prompt ran live) alive
  refine ⟨b, grows, ⟨realizes, ?_, ?_⟩, progressed⟩
  · exact hinted_mono grows
      (paced.hinted.step taken (fun task ran _ => paced.realizes.hints (server_asked ran))
        (fun _ _ _ _ _ => trivial) (fun _ _ _ _ _ => trivial))
  · intro id q alive leads peer member
    rcases step_host taken id with same | ⟨task, ran, rfl, -, served⟩
    · rw [same] at alive
      exact paced.leaders id q alive leads peer member
    · cases live : (w.hosts task.node).proc with
      | none =>
          rw [served] at alive
          rw [Host.restart_follows live alive] at leads
          cases leads
      | some p =>
          have longer := paced.realizes.longer realizes grows live served alive leads
          rcases progressed task.node p q live alive leads peer member with ⟨-, before, inside⟩
          exact ⟨before, by omega⟩

theorem paced_initial : initial.Paced setting Consensus.State.initial where
  realizes := realizes_initial
  hinted := ⟨(fun _ _ => trivial), (fun _ _ member => nomatch member), (fun _ _ => trivial),
    (fun _ _ => trivial)⟩
  leaders := fun _ _ live => nomatch live

def Punctual (setting : Setting) (w : Cluster) (event : Event) : Prop :=
  w.Reliable event ∧ w.Prompt setting event

instance (w : Cluster) (event : Event) : Decidable (w.Punctual setting event) :=
  inferInstanceAs (Decidable (_ ∧ _))

theorem Paced.run (paced : w.Paced setting a) (run : Run setting (Punctual setting) w next) :
    ∃ b, next.Paced setting b := by
  induction run with
  | refl => exact ⟨a, paced⟩
  | tail _ step ih =>
      rcases ih with ⟨b, paced⟩
      rcases step with ⟨event, next, ⟨reliable, prompt⟩, taken⟩
      rcases paced.step taken reliable prompt with ⟨c, -, after, -⟩
      exact ⟨c, after⟩

theorem run_weaken {allowed weaker : Cluster → Event → Prop} (run : Run setting allowed w next)
    (implies : ∀ w event, allowed w event → weaker w event) : Run setting weaker w next := by
  induction run with
  | refl => exact .refl
  | tail _ step ih =>
      rcases step with ⟨event, _, admitted, taken⟩
      exact ih.tail (.event event _ (implies _ event admitted) taken)

def Leads (w : Cluster) (id : NodeId) (term : Nat) : Prop :=
  ((w.hosts id).proc.any fun p => p.node.role = .leader ∧ p.node.currentTerm = term) = true

instance (w : Cluster) (id : NodeId) (term : Nat) : Decidable (w.Leads id term) :=
  inferInstanceAs (Decidable (_ = true))

def PunctualUnder (setting : Setting) (id : NodeId) (term : Nat) (w : Cluster) (event : Event) :
    Prop :=
  w.Punctual setting event ∧ w.Leads id term

instance (w : Cluster) (event : Event) (term : Nat) :
    Decidable (w.PunctualUnder setting id term event) :=
  inferInstanceAs (Decidable (_ ∧ _))

/-- While a node leads, in whatever order the replies to its calls are taken in, no acknowledgement
of a peer is forgotten and `nextIndex` stays beyond all of them. -/
theorem progress_kept {first second : Cluster} {term : Nat}
    (before : Run setting (Punctual setting) initial first)
    (after : Run setting (PunctualUnder setting id term) first second)
    (leads : second.Leads id term) {p q : Proc} (live : (first.hosts id).proc = some p)
    (alive : (second.hosts id).proc = some q) {peer : NodeId}
    (member : peer ∈ (setting.config id).peerAddrs) :
    p.node.matchIndex peer ≤ q.node.matchIndex peer ∧
      q.node.matchIndex peer < q.node.nextIndex peer := by
  induction after generalizing q with
  | refl =>
      rcases paced_initial.run before with ⟨a, paced⟩
      rw [live] at alive
      cases alive
      simp only [Leads, live, Option.any_some, decide_eq_true_eq] at leads
      exact ⟨le_rfl, (paced.leaders id p live leads.1 peer member).1⟩
  | tail run step ih =>
      rename_i mid last
      rcases step with ⟨event, last, ⟨⟨reliable, prompt⟩, led⟩, taken⟩
      have reached : Run setting (Punctual setting) initial mid :=
        before.trans (run_weaken run fun _ _ admitted => admitted.1)
      rcases paced_initial.run reached with ⟨a, paced⟩
      rcases paced.step taken reliable prompt with ⟨b, -, -, progressed⟩
      cases between : (mid.hosts id).proc with
      | none => simp [Leads, between] at led
      | some r =>
          have earlier := (ih led between).1
          simp only [Leads, between, alive, Option.any_some, decide_eq_true_eq] at led leads
          rcases progressed id r q between alive leads.1 peer member with ⟨kept, beyond, -⟩
          exact ⟨earlier.trans (kept led.1), beyond⟩

/-- `c` takes over in term 2 while `b` has an empty log, and calls `b` twice. -/
def calling : List Event :=
  [.campaign "c" [], .solicit 1 "b", .deliver 2 [], .win 1 [], .replicate "c" "b",
   .replicate "c" "b"]

/-- `b` refuses both calls; the first refusal makes `c` send everything, which `b` acknowledges. -/
def retrying : List Event :=
  [.deliver 3 [], .deliver 4 [], .reply 3 [], .replicate "c" "b", .deliver 5 [], .reply 5 []]

def retryingInOrder : List Event :=
  [.deliver 3 [], .deliver 4 [], .reply 3 [], .reply 4 [], .replicate "c" "b", .deliver 5 [],
   .reply 5 []]

def tracks (matched next : Nat) (p : Proc) : Bool :=
  p.node.role = .leader ∧ p.node.currentTerm = 2 ∧ p.node.matchIndex "b" = matched ∧
    p.node.nextIndex "b" = next

theorem progress_kept_inOrder :
    ∃ first second p q, Run trioSetting (Punctual trioSetting) initial first ∧
      Run trioSetting (PunctualUnder trioSetting "c" 2) first second ∧
      (first.hosts "c").proc = some p ∧
    (second.hosts "c").proc = some q ∧ p.node.matchIndex "b" = 0 ∧ q.node.matchIndex "b" = 3 ∧
    p.node.matchIndex "b" ≤ q.node.matchIndex "b" ∧
      q.node.matchIndex "b" < q.node.nextIndex "b" := by
  have played : (play trioSetting (Punctual trioSetting) initial
      (accepting ++ committing ++ calling)).any (fun first => first.holdsAt "c" (tracks 0 3) &&
        (play trioSetting (PunctualUnder trioSetting "c" 2) first retryingInOrder).any fun second =>
          second.holdsAt "c" (tracks 3 4)) = true := by
    decide +kernel
  rcases play_any played with ⟨first, before, checked⟩
  rcases Bool.and_eq_true_iff.mp checked with ⟨start, onward⟩
  rcases play_any onward with ⟨second, after, finish⟩
  rcases holdsAt_proc start with ⟨p, live, early⟩
  rcases holdsAt_proc finish with ⟨q, alive, late⟩
  simp only [tracks, decide_eq_true_eq] at early late
  have leads : second.Leads "c" 2 := by
    simp only [Leads, alive, Option.any_some, decide_eq_true_eq]
    exact ⟨late.1, late.2.1⟩
  exact ⟨first, second, p, q, before, after, live, alive, early.2.2.1, late.2.2.1,
    progress_kept before after leads live alive (by decide)⟩

/-- The second refusal is taken in last and sends `c` back to an entry that `b` has acknowledged. -/
theorem progress_lost : ∃ first second p q, Run trioSetting Reliable initial first ∧
    first.step trioSetting (.reply 4 []) = some second ∧ (first.hosts "c").proc = some p ∧
    (second.hosts "c").proc = some q ∧ p.node.role = .leader ∧ p.node.currentTerm = 2 ∧
    p.node.matchIndex "b" = 3 ∧ p.node.nextIndex "b" = 4 ∧ q.node.role = .leader ∧
      q.node.currentTerm = 2 ∧
    q.node.matchIndex "b" = 3 ∧ q.node.nextIndex "b" = 1 := by
  have played : (play trioSetting Reliable initial (accepting ++ committing ++ calling ++
      retrying)).any (fun first => first.holdsAt "c" (tracks 3 4) && (first.step trioSetting
        (.reply 4 [])).any fun second =>
        second.holdsAt "c" (tracks 3 1)) = true := by
    decide +kernel
  rcases play_any played with ⟨first, run, checked⟩
  rcases Bool.and_eq_true_iff.mp checked with ⟨start, onward⟩
  rcases (Option.any_eq_true _ _).mp onward with ⟨second, taken, finish⟩
  rcases holdsAt_proc start with ⟨p, live, early⟩
  rcases holdsAt_proc finish with ⟨q, alive, late⟩
  simp only [tracks, decide_eq_true_eq] at early late
  exact ⟨first, second, p, q, run, taken, live, alive, early.1, early.2.1, early.2.2.1, early.2.2.2,
    late.1, late.2.1, late.2.2.1, late.2.2.2⟩

end Cluster

end GoRaftKV.Raft
