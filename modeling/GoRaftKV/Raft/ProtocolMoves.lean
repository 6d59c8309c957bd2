import GoRaftKV.Raft.Refinement

/-! What the locked sections do to memory, as moves of the protocol. -/

namespace GoRaftKV.Raft

open Storage Library Program

/-- Moves of `v` in the protocol lead from `a` to `b`, and its invariant holds at `b`. -/
abbrev Reaches (setting : Setting) (v : NodeId) : Ideal → Ideal → Prop :=
  Consensus.Reach LogEntry.term setting.Quorum v

/-- The two nodes differ in nothing that concerns the log. -/
structure SameLog (n m : Node) : Prop where
  snapshot : m.snapshot = n.snapshot
  log : m.log = n.log
  commit : m.commitIndex = n.commitIndex
  applied : m.lastApplied = n.lastApplied
  pending : m.pendingSnapshot = n.pendingSnapshot

theorem SameLog.wellFormed {n m : Node} (same : SameLog n m) (wf : WellFormed n) : WellFormed m :=
  (Node.Upholds.of_same wf same.log same.snapshot same.applied same.commit).wellFormed

namespace Node

variable {setting : Setting} {cfg : Config} {n m : Node} {a b : Ideal} {v : NodeId}

theorem Realizes.restyled (realizes : n.Realizes a setting.codec v) (same : SameLog n m)
    (grows : Consensus.Extends a b) (term : b.term v = m.currentTerm)
    (voted : b.voted v = ballotOf m.votedFor) (role : b.role v = m.role) (log : b.log v = a.log v)
    (leads : m.role = .leader → m.Leads b v) : m.Realizes b setting.codec v where
  wf := same.wellFormed realizes.wf
  snapshot := same.snapshot ▸ realizes.snapshot.mono grows
  term := term
  voted := voted
  role := role
  log := by
    rw [log, realizes.log, fullLog, fullLog, same.snapshot, same.log]
  committed := by
    rw [fullLog, same.snapshot, same.log, same.commit]
    exact realizes.committed.mono grows (grows.term v)
  leads := leads
  pending := by
    intro progress found
    rw [same.pending] at found
    exact (realizes.pending progress found).mono grows

theorem Realizes.congr (realizes : n.Realizes a setting.codec v) (same : SameLog n m)
    (term : m.currentTerm = n.currentTerm) (voted : m.votedFor = n.votedFor)
    (role : m.role = n.role) (progress : m.matchIndex = n.matchIndex)
    (noop : m.leaderNoopIndex = n.leaderNoopIndex) :
    m.Realizes a setting.codec v := by
  refine realizes.restyled same (.refl a) (realizes.term.trans term.symm) ?_
    (realizes.role.trans role.symm) rfl ?_
  · rw [voted]
    exact realizes.voted
  · intro leader
    apply (realizes.leads (role ▸ leader)).congr _ same.commit.ge term progress noop
    rw [fullLog, fullLog, same.snapshot, same.log]

theorem steppedDown_fields (n : Node) (cfg : Config) (term : Nat) (leaderID : NodeId) :
    SameLog n (n.steppedDown cfg term leaderID) ∧
    (n.steppedDown cfg term leaderID).currentTerm = max n.currentTerm term ∧
    (n.steppedDown cfg term leaderID).votedFor = (if n.currentTerm < term then "" else n.votedFor) ∧
    (n.steppedDown cfg term leaderID).role = .follower := by
  rw [steppedDown, followerAt_eq]
  split <;> exact ⟨⟨rfl, rfl, rfl, rfl, rfl⟩, rfl, rfl, rfl⟩

theorem Realizes.follow (realizes : n.Realizes b setting.codec v) (reach : Reaches setting v a b)
    (term : Nat) (leaderID : NodeId) :
    ∃ c, Reaches setting v a c ∧ (n.steppedDown cfg term leaderID).Realizes c setting.codec v := by
  rcases steppedDown_fields n cfg term leaderID with ⟨same, newTerm, vote, role⟩
  by_cases later : n.currentTerm < term
  · have rises : b.term v < term := realizes.term ▸ later
    refine ⟨_, reach.advance rises,
      realizes.restyled same (Consensus.extends_advance rises) ?_ ?_ ?_ rfl ?_⟩
    · rw [newTerm, max_eq_right later.le]
      exact Function.update_self ..
    · rw [vote, if_pos later]
      exact Function.update_self ..
    · rw [role]
      exact Function.update_self ..
    · rw [role]
      exact nofun
  · refine ⟨_, reach.follow, realizes.restyled same (Consensus.extends_setRole v .follower) ?_ ?_ ?_
      rfl ?_⟩
    · rw [newTerm, max_eq_left (Nat.le_of_not_lt later)]
      exact realizes.term
    · rw [vote, if_neg later]
      exact realizes.voted
    · rw [role]
      exact Function.update_self ..
    · rw [role]
      exact nofun

theorem Realizes.upToDate (realizes : n.Realizes a setting.codec v) {req : RequestVoteRequest}
    {log : List LogEntry} (index : req.lastLogIndex = log.length)
    (term : req.lastLogTerm = endTerm log) (recent : n.upToDate req = true) :
    Consensus.UpToDate LogEntry.term log (a.log v) := by
  unfold Node.upToDate at recent
  rw [decide_eq_true_eq, realizes.whole.lastTerm, realizes.whole.lastIndex, index, term] at recent
  rw [realizes.log]
  exact recent

theorem Realizes.vote (realizes : n.Realizes b setting.codec v) (reach : Reaches setting v a b)
    {req : RequestVoteRequest} (asked : req.Follows b) (named : req.candidateID ≠ "")
    (current : n.currentTerm = req.term)
    (undecided : n.votedFor = "" ∨ n.votedFor = req.candidateID) (recent : n.upToDate req = true) :
    ∃ c, Reaches setting v a c ∧ Realizes { n with votedFor := req.candidateID } c setting.codec v ∧
      ∃ ballot ∈ c.ballots, ballot.voter = v ∧ ballot.term = req.term ∧
        ballot.candidate = req.candidateID := by
  rcases asked with ⟨log, standing, index, term⟩
  have free : b.voted v = none ∨ b.voted v = some req.candidateID := by
    rw [realizes.voted, ballotOf]
    rcases undecided with blank | same
    · exact Or.inl (if_pos blank)
    · rw [same]
      exact Or.inr (if_neg named)
  have now : b.term v = req.term := realizes.term.trans current
  rw [← now] at standing
  refine ⟨_, reach.grant free standing (realizes.upToDate index term recent), ?_, _, Or.inl rfl,
    rfl, now, rfl⟩
  refine realizes.restyled ⟨rfl, rfl, rfl, rfl, rfl⟩ (Consensus.extends_grant v req.candidateID)
    realizes.term ?_ realizes.role rfl ?_
  · rw [ballotOf, if_neg named]
    exact Function.update_self ..
  · intro leader
    have kept := (realizes.leads leader).mono (Consensus.extends_grant v req.candidateID) rfl
    exact kept.congr rfl le_rfl rfl rfl rfl

theorem Realizes.stand (realizes : n.Realizes b setting.codec v) (reach : Reaches setting v a b)
    (own : cfg.id = v) (named : v ≠ "") (unwrapped : n.currentTerm + 1 < uint64Size) :
    ∃ c, Reaches setting v a c ∧ (n.candidate cfg).Realizes c setting.codec v ∧
      c.campaign v (n.currentTerm + 1) = some n.fullLog ∧
      ∃ ballot ∈ c.ballots, ballot.voter = v ∧ ballot.term = n.currentTerm + 1 ∧
        ballot.candidate = v := by
  have rises : b.term v < n.currentTerm + 1 := realizes.term ▸ Nat.lt_succ_self _
  refine ⟨_, reach.stand rises, ?_, ?_, _, Or.inl rfl, rfl, rfl, rfl⟩
  · refine realizes.restyled ⟨rfl, rfl, rfl, rfl, rfl⟩ (Consensus.extends_stand reach.inv rises) ?_
      ?_ ?_ rfl nofun
    · rw [candidate, Nat.mod_eq_of_lt unwrapped]
      exact Function.update_self ..
    · rw [candidate, own, ballotOf, if_neg named]
      exact Function.update_self ..
    · exact Function.update_self ..
  · simp only [Consensus.State.stand, Function.update_self, realizes.log]

theorem Realizes.grown (realizes : n.Realizes a setting.codec v) {entry : LogEntry}
    (next : entry.index = n.lastIndexLocked + 1)
    (same : SameLog { n with log := n.log ++ [entry] } m) (grows : Consensus.Extends a b)
    (term : b.term v = m.currentTerm) (voted : b.voted v = ballotOf m.votedFor)
    (role : b.role v = m.role) (log : b.log v = a.log v ++ [entry]) (leads : m.Leads b v) :
    m.Realizes b setting.codec v := by
  have whole : m.fullLog = n.fullLog ++ [entry] := by
    rw [fullLog, fullLog, same.snapshot, same.log, List.append_assoc]
  have grown : n.Upholds { n with log := n.log ++ [entry] } :=
    .snoc realizes.wf next rfl rfl rfl rfl
  have reach : m.commitIndex ≤ n.fullLog.length := by
    rw [same.commit, ← realizes.whole.lastIndex]
    exact realizes.wf.committed
  refine ⟨same.wellFormed grown.wellFormed, same.snapshot ▸ realizes.snapshot.mono grows, term,
    voted, role, ?_, ?_,
    fun _ => leads, ?_⟩
  · rw [log, realizes.log, whole]
  · rw [whole, List.take_append_of_le_length reach, same.commit]
    exact realizes.committed.mono grows (grows.term v)
  · intro progress found
    rw [same.pending] at found
    exact (realizes.pending progress found).mono grows

theorem Realizes.propose (realizes : n.Realizes b setting.codec v) (reach : Reaches setting v a b)
    (own : cfg.id = v) (leads : n.role = .leader) (command : Command) (chan : ChanId) :
    ∃ c, Reaches setting v a c ∧ (n.accepted cfg
      { index := n.lastIndexLocked + 1, term := n.currentTerm, command := command } chan).Realizes c
        setting.codec v := by
  have leader : b.role v = .leader := realizes.role.trans leads
  have grows : Consensus.Extends b (b.propose v ⟨n.lastIndexLocked + 1, n.currentTerm, command⟩) :=
    Consensus.extends_propose reach.inv leader
  refine ⟨_, reach.propose leader realizes.term.symm,
    realizes.grown rfl ⟨rfl, rfl, rfl, rfl, rfl⟩ grows realizes.term realizes.voted realizes.role
      (Function.update_self ..) ⟨?_, fun peer other => ?_, (realizes.leads leads).decided,
    (realizes.leads leads).noop⟩⟩
  · refine Or.inr ⟨_, Or.inl rfl, rfl, realizes.term, ?_⟩
    rw [realizes.log]
    simp only [fullLog, accepted, List.length_append, List.length_singleton]
    omega
  · have progress : (n.accepted cfg ⟨n.lastIndexLocked + 1, n.currentTerm, command⟩ chan).matchIndex
        peer = n.matchIndex peer := Function.update_of_ne (own ▸ other) _ _
    rw [progress]
    exact ((realizes.leads leads).peers peer other).mono grows

theorem Realizes.lead (realizes : n.Realizes b setting.codec v) (reach : Reaches setting v a b)
    (own : cfg.id = v) (standing : n.role = .candidate) {electors : Finset NodeId}
    (enough : setting.Quorum electors) (won : ∀ u ∈ electors, ∃ ballot ∈ b.ballots,
      ballot.voter = u ∧ ballot.term = n.currentTerm ∧ ballot.candidate = v) :
    ∃ c, Reaches setting v a c ∧ ((n.leading cfg).withNoop cfg
      { index := n.lastIndexLocked + 1, term := n.currentTerm,
        command := { op := .noop } }).Realizes c setting.codec v := by
  have meet := fun first second => @Setting.Quorum.meet setting first second
  have candidate : b.role v = .candidate := realizes.role.trans standing
  rw [← realizes.term] at won
  have elected := reach.elect meet candidate enough won
  have leader : (b.elect v electors).role v = .leader := Function.update_self ..
  have vacant := reach.inv.vacant meet candidate enough won
  have begins : Consensus.Extends b (b.elect v electors) := Consensus.extends_elect reach.inv vacant
  have grows : Consensus.Extends b
      ((b.elect v electors).propose v ⟨n.lastIndexLocked + 1, n.currentTerm, { op := .noop }⟩) :=
    begins.trans (Consensus.extends_propose elected.inv leader)
  refine ⟨_, elected.propose leader realizes.term.symm,
    realizes.grown rfl ⟨rfl, rfl, rfl, rfl, rfl⟩ grows realizes.term realizes.voted leader
      (Function.update_self ..) ⟨?_, fun peer other => Or.inl ?_, ?_, ?_⟩⟩
  · refine Or.inr ⟨_, Or.inl rfl, rfl, realizes.term, ?_⟩
    have same : (b.elect v electors).log v = n.fullLog := realizes.log
    rw [same]
    simp only [fullLog, leading, withNoop, List.length_append, List.length_singleton]
    omega
  · have foreign : peer ≠ cfg.id := own ▸ other
    simp only [withNoop, leading, Function.update_of_ne foreign]
  · have undecided : b.decided n.currentTerm = 0 := reach.inv.undecided (realizes.term ▸ vacant)
    exact undecided.trans_le (Nat.zero_le _)
  · refine ⟨⟨v, electors, b.log v⟩, ?_, rfl, ?_⟩
    · have won : (b.elect v electors).election (b.term v) = some ⟨v, electors, b.log v⟩ :=
        Function.update_self ..
      rw [realizes.term] at won
      exact won
    · rw [realizes.log, ← realizes.whole.lastIndex]
      exact Nat.lt_succ_self n.lastIndexLocked

theorem replicaCount_quorum (own : cfg = setting.config v) (member : v ∈ setting.members)
    {index : Nat} (enough : cfg.quorum ≤ n.replicaCount cfg index) :
    setting.Quorum (insert v (cfg.peerAddrs.filter fun peer => index ≤ n.matchIndex peer)) := by
  subst own
  exact Setting.quorum_counted member ( Finset.filter_subset _ _) enough

theorem Realizes.decide (realizes : n.Realizes b setting.codec v) (reach : Reaches setting v a b)
    (own : cfg = setting.config v) (member : v ∈ setting.members) (leads : n.role = .leader)
    {index : Nat} (target : n.commitTarget cfg n.lastIndexLocked = some index) :
    ∃ c, Reaches setting v a c ∧ Realizes { n with commitIndex := index } c setting.codec v := by
  rcases commitTarget_some target with ⟨later, bound, current, enough⟩
  have compacted := realizes.wf.compacted
  have applied := realizes.wf.applied
  have length := realizes.whole.lastIndex
  rcases reach.inv.leads v (realizes.role.trans leads) with ⟨won, elected, -, log⟩
  rw [realizes.log] at log
  rw [realizes.whole.termAt (by omega) (by omega)] at current
  rcases Option.map_eq_some_iff.mp current with ⟨entry, present, term⟩
  rw [log] at present
  have acked : ∀ u ∈ insert v (cfg.peerAddrs.filter fun peer => index ≤ n.matchIndex peer),
      ∃ ack ∈ b.acks, ack.node = u ∧ ack.term = b.term v ∧ index ≤ ack.index := by
    have backed (u : NodeId) (reached : Nat) (acked : Acked b u n.currentTerm reached)
        (enough : index ≤ reached) :
        ∃ ack ∈ b.acks, ack.node = u ∧ ack.term = b.term v ∧ index ≤ ack.index := by
      rcases acked with zero | ⟨ack, found, node, term, bound⟩
      · omega
      · exact ⟨ack, found, node, term.trans realizes.term.symm, enough.trans bound⟩
    intro u counted
    rcases Finset.mem_insert.mp counted with rfl | peer
    · exact backed u _ (realizes.leads leads).own (length ▸ bound)
    · rcases Finset.mem_filter.mp peer with ⟨remote, matched⟩
      have foreign : u ≠ v := by
        rw [own, Setting.peerAddrs_eq] at remote
        exact (Finset.mem_erase.mp remote).1
      exact backed u _ ((realizes.leads leads).peers u foreign) matched
  have decided := reach.decide (realizes.role.trans leads) present (term.trans realizes.term.symm)
    (replicaCount_quorum own member enough) acked
  refine ⟨_, decided, ?_⟩
  have grows : Consensus.Extends b (b.decide v index) := Consensus.extends_decide v index
  have wf : WellFormed { n with commitIndex := index } :=
    ((Move.commit n index later.le bound : Move cfg n _).upholds realizes.wf).wellFormed
  have whole : (fullLog { n with commitIndex := index }) = b.leaderLog (b.term v) := log
  have reached : (b.decide v index).decided (b.term v) = max (b.decided (b.term v)) index :=
    Function.update_self ..
  have reign := realizes.leads leads
  refine ⟨wf, realizes.snapshot.mono grows, realizes.term, realizes.voted, realizes.role,
    realizes.log, Or.inr ⟨b.term v, le_rfl, ?_⟩, fun _ => ⟨reign.own, reign.peers, ?_, reign.noop⟩,
    fun progress found => (realizes.pending progress found).mono grows⟩
  · rw [whole, reached]
    exact List.take_isPrefix_take.mpr (Or.inl (le_max_right _ _))
  · have before := reign.decided
    rw [← realizes.term] at before
    simp only [← realizes.term, reached]
    exact max_le (before.trans later.le) le_rfl

theorem Realizes.acknowledge (realizes : n.Realizes a setting.codec v) {peer : NodeId} {index : Nat}
    (acked : Acked a peer n.currentTerm index) :
    (n.acknowledge peer index).Realizes a setting.codec v := by
  refine realizes.restyled ⟨rfl, rfl, rfl, rfl, rfl⟩ (.refl a) realizes.term realizes.voted
    realizes.role rfl ?_
  intro leads
  rcases realizes.leads leads with ⟨own, peers, decided, noop⟩
  refine ⟨own, fun other foreign => ?_, decided, noop⟩
  by_cases same : other = peer
  · subst same
    have reached : (n.acknowledge other index).matchIndex other = max (n.matchIndex other) index :=
      Function.update_self ..
    rw [reached]
    rcases max_choice (n.matchIndex other) index with first | second
    · rw [first]
      exact peers other foreign
    · rw [second]
      exact acked
  · have kept : (n.acknowledge peer index).matchIndex other = n.matchIndex other :=
      Function.update_of_ne same _ _
    rw [kept]
    exact peers other foreign

section Accept

theorem agree_upTo {first second : List LogEntry} (left : Consensus.Grounded LogEntry.term a first)
    (right : Consensus.Grounded LogEntry.term a second) {index term : Nat} (positive : 0 < index)
    (one : termOfIndex first index = some term) (two : termOfIndex second index = some term) :
    first.take index = second.take index := by
  rcases Option.map_eq_some_iff.mp one with ⟨entry, present, here⟩
  rcases Option.map_eq_some_iff.mp two with ⟨other, found, there⟩
  have agree := left.agree right present found (here.trans there.symm)
  rwa [Nat.sub_add_cancel positive] at agree

theorem aligned_chosen (inv : Consensus.Inv LogEntry.term setting.Quorum a) {t index count : Nat}
    {log : List LogEntry} (led : (a.election t).isSome)
    (chosen : Consensus.Chosen a t (log.take count)) (inside : count ≤ log.length)
    (kept : count ≤ (a.aligned t index log).length) :
    Consensus.Chosen a t ((a.aligned t index log).take count) := by
  rcases Consensus.aligned_cases (a := a) t index log with same | ⟨replaced, -⟩
  · rw [same]
    exact chosen
  · have meet := fun first second => @Setting.Quorum.meet setting first second
    rcases inv.chosenPrefix meet chosen led with ⟨rest, whole⟩
    rw [replaced] at kept ⊢
    have length : (log.take count).length = count := List.length_take_of_le inside
    have first : (a.leaderLog t).take count = log.take count := by
      rw [← whole, List.take_append_of_le_length length.ge, List.take_take, min_self]
    have bound : count ≤ index := kept.trans (List.length_take_le _ _)
    rw [List.take_take, min_eq_left bound, first]
    exact chosen

theorem Realizes.accept (realizes : n.Realizes b setting.codec v) (reach : Reaches setting v a b)
    (follows : n.role = .follower) (led : (b.election n.currentTerm).isSome) {index : Nat}
    (bound : index ≤ (b.leaderLog n.currentTerm).length) (wf : WellFormed m)
    (snapshot : Agreed b m.snapshot) (term : m.currentTerm = n.currentTerm)
    (voted : m.votedFor = n.votedFor) (role : m.role = n.role)
    (log : m.fullLog = b.aligned n.currentTerm index n.fullLog)
    (committed : Consensus.Chosen b n.currentTerm (m.fullLog.take m.commitIndex))
    (pending : ∀ progress, m.pendingSnapshot = some progress → progress.Follows b setting.codec) :
    ∃ c, Reaches setting v a c ∧ m.Realizes c setting.codec v ∧ Acked c v n.currentTerm index := by
  have grows : Consensus.Extends b (b.accept v index) := Consensus.extends_accept v index
  rw [← realizes.term] at led bound log committed
  refine ⟨_, reach.accept (realizes.role.trans follows) led bound, ?_,
    Or.inr ⟨_, Or.inl rfl, rfl, realizes.term, le_rfl⟩⟩
  refine ⟨wf, snapshot.mono grows, realizes.term.trans term.symm, ?_, realizes.role.trans role.symm,
    ?_, committed.mono grows le_rfl, ?_, fun progress found => (pending progress found).mono grows⟩
  · rw [voted]
    exact realizes.voted
  · rw [log, ← realizes.log]
    exact Function.update_self ..
  · rw [role, follows]
    exact nofun

end Accept

end Node

end GoRaftKV.Raft
