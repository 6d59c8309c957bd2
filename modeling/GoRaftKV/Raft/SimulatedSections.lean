import GoRaftKV.Raft.Installing

/-! The locked sections as runs of the protocol: wherever a section ends or its machine stops,
memory is what the protocol says after some moves of the node. -/

namespace GoRaftKV.Raft

open Storage Library Program

/-- What a section that neither applies nor changes the snapshot leaves alone. -/
structure Node.Steady (n m : Node) : Prop where
  snapshot : m.snapshot = n.snapshot
  applied : m.lastApplied = n.lastApplied
  sm : m.sm = n.sm
  history : m.history = n.history
  commit : n.commitIndex ≤ m.commitIndex

theorem Node.Steady.refl (n : Node) : n.Steady n := ⟨rfl, rfl, rfl, rfl, le_rfl⟩

theorem Node.Steady.trans {n m k : Node} (first : n.Steady m) (second : m.Steady k) : n.Steady k :=
  ⟨second.snapshot.trans first.snapshot, second.applied.trans first.applied,
    second.sm.trans first.sm, second.history.trans first.history, first.commit.trans second.commit⟩

/-- From `n`, with the protocol at `a`, the node `v` has come to `m`, and `also` holds of the
protocol. -/
def Node.Attains (setting : Setting) (v : NodeId) (a : Ideal) (n : Node) (also : Ideal → Prop)
    (m : Node) : Prop :=
  n.Steady m ∧ ∃ b, Reaches setting v a b ∧ m.Realizes b setting.codec v ∧ also b

def Node.Passes (setting : Setting) (v : NodeId) (a : Ideal) (n m : Node) : Prop :=
  n.Steady m ∧ ∃ b, Reaches setting v a b ∧ m.Realizes b setting.codec v

namespace Node

variable {setting : Setting} {cfg : Config} {n m : Node} {a : Ideal} {v : NodeId} {base : Snapshot}
  {disk : Disk}

theorem Passes.attains {also : Ideal → Prop} (passes : Passes setting v a n m)
    (holds : ∀ b, also b) :
    Attains setting v a n also m := by
  rcases passes with ⟨steady, b, reach, realizes⟩
  exact ⟨steady, b, reach, realizes, holds b⟩

theorem Passes.wf (passes : Passes setting v a n m) : WellFormed m := by
  rcases passes with ⟨-, b, -, realizes⟩
  exact realizes.wf

theorem Passes.follow (passes : Passes setting v a n m) (term : Nat) (leaderID : NodeId) :
    Passes setting v a n (m.steppedDown cfg term leaderID) := by
  rcases passes with ⟨steady, b, reach, realizes⟩
  have followed : ∃ c, Reaches setting v a c ∧
      (m.steppedDown cfg term leaderID).Realizes c setting.codec v :=
    realizes.follow reach term leaderID
  rcases followed with ⟨c, further, down⟩
  refine ⟨steady.trans ?_, c, further, down⟩
  rw [steppedDown, followerAt_eq]
  split <;> exact ⟨rfl, rfl, rfl, rfl, le_rfl⟩

theorem Passes.congr {k : Node} (passes : Passes setting v a n m) (same : SameLog m k)
    (steady : m.Steady k) (term : k.currentTerm = m.currentTerm) (voted : k.votedFor = m.votedFor)
    (role : k.role = m.role) (progress : k.matchIndex = m.matchIndex)
    (noop : k.leaderNoopIndex = m.leaderNoopIndex) :
    Passes setting v a n k := by
  rcases passes with ⟨before, b, reach, realizes⟩
  exact ⟨before.trans steady, b, reach, realizes.congr same term voted role progress noop⟩

def Voted (v : NodeId) (req : RequestVoteRequest) (b : Ideal) : Prop :=
  ∃ ballot ∈ b.ballots, ballot.voter = v ∧ ballot.term = req.term ∧
    ballot.candidate = req.candidateID

theorem handleRequestVote_attains {req : RequestVoteRequest} (start : Passes setting v a n n)
    (asked : req.Follows a) (stored : Stored base disk n) :
    (n.handleRequestVote cfg req).wp store
      (fun r disk => Stored base disk r.1 ∧
        Attains setting v a n (fun b => r.2.voteGranted = true → Voted v req b) r.1)
      (Stops (Stored base) (Passes setting v a n)) disk := by
  refine handleRequestVote_tracked (stored_tracks base) stored start ?_ ?_ ?_
  · exact fun _ => start.follow req.term ""
  · intro m passes known current undecided recent
    have named : req.candidateID ≠ "" := by
      simp only [Config.isKnownRemotePeerLocked, decide_eq_true_eq] at known
      exact known.1
    rcases passes with ⟨steady, b, reach, realizes⟩
    rcases realizes.vote reach (asked.mono reach.acts.grows) named current undecided recent with
      ⟨c, further, voted, cast⟩
    have kept : n.Steady { m with votedFor := req.candidateID } :=
      steady.trans ⟨rfl, rfl, rfl, rfl, le_rfl⟩
    exact ⟨⟨kept, c, further, voted⟩, kept, c, further, voted, fun _ => cast⟩
  · exact fun m passes => passes.attains fun _ => nofun

def Accepted (v : NodeId) (req : AppendEntriesRequest) (b : Ideal) : Prop :=
  Acked b v req.term (req.prevLogIndex + req.entries.length)

theorem Passes.mergeEnd {req : AppendEntriesRequest} {k : Node} {result : MergeEntriesResult}
    {keep : Nat} {rest : List LogEntry} (passes : Passes setting v a n k) (asked : req.Follows a)
    (role : k.role = .follower) (current : k.currentTerm = req.term) (fits : k.Matches req)
    (none : result.conflictIndex = 0)
    (merged : Merged k req.prevLogIndex { lastNewIndex := k.requestEnd req } req.entries
    (m, result)) (splice : Splice k (k.requestEnd req) m result keep rest) :
    MergeEnd (Passes setting v a n)
      (fun r => Attains setting v a n (fun b => r.2.success = true → Accepted v req b) r.1) k req
        m rest
      result.replaced := by
  rcases passes with ⟨steady, b, reach, realizes⟩
  have follows := asked.mono reach.acts.grows
  rcases realizes.merged reach.inv follows fits none merged with ⟨aligned, appended⟩
  have whole : k.requestEnd req = req.prevLogIndex + req.entries.length := by
    rw [requestEnd, uncovered_all follows.ordered fits.compacted]
  have wf : WellFormed m := by
    rw [splice.memory]
    exact (upholds_merge realizes.wf splice.bound splice.safe splice.next).wellFormed
  have same : Relogged k m := by
    rw [splice.memory]
    exact ⟨rfl, rfl, rfl, rfl, rfl, rfl⟩
  have kept : n.Steady m := by
    apply steady.trans
    rw [splice.memory]
    exact ⟨rfl, rfl, rfl, rfl, le_rfl⟩
  rcases realizes.spliced reach follows role current follows.finish wf same aligned with
    ⟨c, further, accepted, acked, asked, held⟩
  refine ⟨⟨kept, c, further, accepted⟩, fun untouched count => ?_, fun later => ?_,
    fun _ => ⟨kept, c, further, accepted, fun _ => acked⟩⟩
  · rcases splice.appended untouched with ⟨all, rest_eq⟩
    have grown : WellFormed { k with log := k.log ++ rest.take count } := by
      have next := splice.next.take count
      rw [all] at next
      exact (upholds_append realizes.wf next).wellFormed
    have steadied : n.Steady { k with log := k.log ++ rest.take count } :=
      steady.trans ⟨rfl, rfl, rfl, rfl, le_rfl⟩
    rcases appended untouched with nothing | inside
    · rw [rest_eq] at nothing
      refine ⟨steadied, b, reach, ?_⟩
      simp only [nothing, List.take_nil, List.append_nil]
      exact realizes
    · rw [rest_eq] at inside
      have part : k.fullLog ++ rest.take count <+: b.leaderLog req.term :=
        ((List.prefix_append_right_inj _).mpr ( List.take_prefix _ _)).trans inside
      have bound := part.length_le
      rw [List.length_append] at bound
      rcases realizes.spliced (m := { k with log := k.log ++ rest.take count }) reach follows role
        current bound grown ⟨rfl, rfl, rfl, rfl, rfl, rfl⟩
          (by rw [aligned_more part, fullLog, fullLog, List.append_assoc]) with
        ⟨d, torn, cut, -⟩
      exact ⟨steadied, d, torn, cut⟩
  · have current' : m.currentTerm = req.term := same.term.trans current
    have committed := accepted.commitTo asked current' later held asked.finish (min_le_left _ _)
      ((min_le_right _ _).trans whole.le)
    have advanced : n.Steady { m with commitIndex := min req.leaderCommit (k.requestEnd req) } :=
      kept.trans ⟨rfl, rfl, rfl, rfl, later.le⟩
    exact ⟨⟨advanced, c, further, committed⟩, advanced, c, further, committed, fun _ => acked⟩

theorem handleAppendEntries_attains {req : AppendEntriesRequest} (start : Passes setting v a n n)
    (asked : req.Follows a) (stored : Stored base disk n) :
    (n.handleAppendEntries cfg req).wp store
      (fun r disk => Stored base disk r.1 ∧
        Attains setting v a n (fun b => r.2.success = true → Accepted v req b) r.1)
      (Stops (Stored base) (Passes setting v a n)) disk := by
  refine handleAppendEntries_tracked (stored_tracks base) start.wf
    (spliceSafe_of_contiguous _ asked.ordered) stored start ?_ ?_ ?_ ?_ ?_
  · exact fun _ _ => start.follow req.term req.leaderID
  · exact fun m passes _ _ => passes.congr ⟨rfl, rfl, rfl, rfl, rfl⟩ ⟨rfl, rfl, rfl, rfl,
      le_rfl⟩ rfl rfl rfl rfl rfl
  · exact fun disk k m result keep rest passes _ kept _ splice => kept.rewritten passes.wf splice
  · exact fun k m result keep rest passes role current fits none merged splice =>
      passes.mergeEnd asked role current fits none merged splice
  · intro m resp passes failure _
    refine passes.attains fun _ success => ?_
    rw [failure] at success
    cases success

section Leadership

variable (own : cfg = setting.config v)

include own

theorem Passes.commit (member : v ∈ setting.members) (passes : Passes setting v a n m)
    (leads : m.role = .leader) {index : Nat}
    (target : m.commitTarget cfg m.lastIndexLocked = some index) :
    Passes setting v a n { m with commitIndex := index } := by
  rcases passes with ⟨steady, b, reach, realizes⟩
  rcases realizes.decide reach own member leads target with ⟨c, further, committed⟩
  exact ⟨steady.trans ⟨rfl, rfl, rfl, rfl, (commitTarget_some target).1.le⟩, c, further, committed⟩

theorem proposeAppend_attains (member : v ∈ setting.members) {command : Command} {chan : ChanId}
    (start : Passes setting v a n n) (stored : Stored base disk n) :
    (n.proposeAppend cfg command chan).wp store
      (fun r disk => Stored base disk r.1 ∧ Passes setting v a n r.1)
      (Stops (Stored base) (Passes setting v a n)) disk := by
  have named : cfg.id = v := by rw [own, setting.config_id]
  have tracked : (n.proposeAppend cfg command chan).wp store
      (fun r disk => Stored base disk r.1 ∧ Passes setting v a n r.1 ∧ True)
      (Stops (Stored base) (Passes setting v a n)) disk := by
    refine proposeAppend_tracked (stored_tracks base) start.wf stored start ?_ ?_
      (fun _ _ => trivial) fun _ => trivial
    · intro leads
      rcases start with ⟨-, b, reach, realizes⟩
      rcases realizes.propose reach named leads command chan with ⟨c, further, accepted⟩
      exact ⟨⟨rfl, rfl, rfl, rfl, le_rfl⟩, c, further, accepted⟩
    · exact fun m index passes leads target => passes.commit own member leads target
  exact wp_mono _ _ (fun _ _ done => ⟨done.1, done.2.1⟩) (fun _ stops => stops) tracked

def Stands (v : NodeId) (req : RequestVoteRequest) (b : Ideal) : Prop :=
  req.candidateID = v ∧ req.Follows b ∧ Voted v req b

theorem startElection_attains (named : v ≠ "") (unwrapped : n.currentTerm + 1 < uint64Size)
    (start : Passes setting v a n n) (stored : Stored base disk n) :
    (n.startElection cfg).wp store
      (fun r disk => Stored base disk r.1 ∧
        Attains setting v a n (fun b => ∀ req, r.2 = some req → Stands v req b) r.1)
      (Stops (Stored base) (Passes setting v a n)) disk := by
  have identity : cfg.id = v := by rw [own, setting.config_id]
  refine startElection_tracked (stored_tracks base) stored start ?_ (start.attains fun _ _ => nofun)
  intro _ _
  rcases start with ⟨-, b, reach, realizes⟩
  rcases realizes.stand reach identity named unwrapped with ⟨c, further, standing, campaign, ballot⟩
  have steady : n.Steady (n.candidate cfg) := ⟨rfl, rfl, rfl, rfl, le_rfl⟩
  refine ⟨⟨steady, c, further, standing⟩, steady, c, further, standing, ?_⟩
  rintro req ⟨⟩
  have term : (n.currentTerm + 1) % uint64Size = n.currentTerm + 1 := Nat.mod_eq_of_lt unwrapped
  refine ⟨identity, ⟨n.fullLog, ?_, realizes.whole.lastIndex, realizes.whole.lastTerm⟩, ?_⟩
  · simp only [candidate, term, identity]
    exact campaign
  · simp only [Voted, candidate, term, identity]
    exact ballot

theorem becomeLeader_attains (member : v ∈ setting.members) {term : Nat} {electors : Finset NodeId}
    (enough : setting.Quorum electors)
    (won : ∀ u ∈ electors, ∃ ballot ∈ a.ballots, ballot.voter = u ∧ ballot.term = term ∧
      ballot.candidate = v)
    (start : Passes setting v a n n) (stored : Stored base disk n) :
    (n.becomeLeader cfg term).wp store (fun m disk => Stored base disk m ∧ Passes setting v a n m)
      (Stops (Stored base) (Passes setting v a n)) disk := by
  have identity : cfg.id = v := by rw [own, setting.config_id]
  refine becomeLeader_tracked (stored_tracks base) start.wf stored start ?_ ?_
  · rintro standing rfl
    rcases start with ⟨-, b, reach, realizes⟩
    have elected : ∀ u ∈ electors, ∃ ballot ∈ b.ballots,
        ballot.voter = u ∧ ballot.term = n.currentTerm ∧ ballot.candidate = v := by
      intro u voter
      rcases won u voter with ⟨ballot, cast, facts⟩
      exact ⟨ballot, reach.acts.grows.ballots cast, facts⟩
    rcases realizes.lead reach identity standing enough elected with ⟨c, further, leads⟩
    exact ⟨⟨rfl, rfl, rfl, rfl, le_rfl⟩, c, further, leads⟩
  · exact fun m index passes leads target => passes.commit own member leads target

theorem replicateReply_attains (member : v ∈ setting.members) {peer : NodeId}
    {req : AppendEntriesRequest} {resp : AppendEntriesResponse}
    (acked : resp.success = true → Acked a peer req.term (req.prevLogIndex + req.entries.length))
    (start : Passes setting v a n n) (stored : Stored base disk n) :
    (n.replicateReply cfg peer req resp).wp store (fun r disk => Stored base disk r.1 ∧
      Passes setting v a n r.1) (Stops (Stored base) (Passes setting v a n)) disk := by
  refine replicateReply_tracked (stored_tracks base) stored start ?_ ?_ ?_ ?_
  · exact fun _ => start.follow resp.term ""
  · intro _ current success
    rcases start with ⟨-, b, reach, realizes⟩
    refine ⟨⟨rfl, rfl, rfl, rfl, le_rfl⟩, b, reach, realizes.acknowledge ?_⟩
    rw [current]
    exact (acked success).mono reach.acts.grows
  · exact fun _ nextIndex =>
      start.congr ⟨rfl, rfl, rfl, rfl, rfl⟩ ⟨rfl, rfl, rfl, rfl, le_rfl⟩ rfl rfl rfl rfl rfl
  · exact fun m index passes leads target => passes.commit own member leads target

end Leadership

section Install

variable {req : InstallSnapshotRequest}

/-- What the first section of an installation leaves for its answer, or for the second section. -/
def Received (setting : Setting) (v : NodeId) (req : InstallSnapshotRequest)
    (progress : InstallProgress) (b : Ideal) : Prop :=
  match progress with
  | .answer resp => resp.success = true → req.done = true → Acked b v req.term req.lastIncludedIndex
  | .decode body => body = bodyOf setting.codec req.history

theorem receiveChunk_attains {b : Ideal} {progress : SnapshotProgress} (steady : n.Steady m)
    (reach : Reaches setting v a b) (realizes : m.Realizes b setting.codec v)
    (follows : req.Follows b setting.codec) (arrived : progress.Follows b setting.codec)
    (same : progress.lastIncludedIndex = req.lastIncludedIndex) :
    Attains setting v a n (Received setting v req (m.receiveChunk progress req).2)
      (m.receiveChunk progress req).1 := by
  have keeps {pending : Option SnapshotProgress} {also : Ideal → Prop}
      (next : ∀ progress, pending = some progress → progress.Follows b setting.codec)
      (holds : also b) :
      Attains setting v a n also { m with pendingSnapshot := pending } :=
    ⟨steady.trans ⟨rfl, rfl, rfl, rfl, le_rfl⟩, b, reach, realizes.repend m.leaderID next, holds⟩
  unfold receiveChunk
  split
  · apply keeps
    · rintro _ ⟨⟩
      exact arrived
    · exact fun success => nomatch success
  · rename_i aligned
    have offset : req.offset = progress.buffer.length := not_not.mp aligned
    have longer := follows.next reach.inv arrived same offset
    have next : ∀ later, some { progress with buffer := progress.buffer ++ req.data } = some later →
        later.Follows b setting.codec := by
      rintro _ ⟨⟩
      exact ⟨req.history, follows.nonempty, ⟨req.term, follows.chosen⟩, same.trans follows.index,
        longer⟩
    simp only
    split
    · rename_i unfinished
      apply keeps next
      intro _ finished
      rw [unfinished] at finished
      cases finished
    · rename_i last
      apply keeps next
      apply longer.eq_of_length
      rw [List.length_append, ← offset]
      exact follows.finished (Bool.of_not_eq_false last)

theorem collectChunk_attains (passes : Passes setting v a n m) (asked : req.Follows a setting.codec)
    (role : m.role = .follower) (current : m.currentTerm = req.term) :
    Attains setting v a n (Received setting v req (m.collectChunk req).2)
      (m.collectChunk req).1 := by
  rcases passes with ⟨steady, b, reach, realizes⟩
  have follows := asked.mono reach.acts.grows
  have led : Realizes { m with leaderID := req.leaderID } b setting.codec v :=
    realizes.repend req.leaderID realizes.pending
  have kept : n.Steady { m with leaderID := req.leaderID } :=
    steady.trans ⟨rfl, rfl, rfl, rfl, le_rfl⟩
  unfold collectChunk
  simp only
  split
  · rename_i old
    have cleared : Realizes { m with leaderID := req.leaderID, pendingSnapshot := none } b
      setting.codec v :=
      realizes.repend req.leaderID nofun
    rcases cleared.stale reach follows role current old with ⟨c, further, held, acked⟩
    exact ⟨steady.trans ⟨rfl, rfl, rfl, rfl, le_rfl⟩, c, further, held, fun _ _ => acked⟩
  · have refused : Attains setting v a n
        (Received setting v req (.answer { term := m.currentTerm }))
        { m with leaderID := req.leaderID } := ⟨kept, b, reach, led, fun success => nomatch success⟩
    split
    · rename_i progress pending
      split
      · rename_i matched
        simp only [SnapshotProgress.matches, decide_eq_true_eq] at matched
        exact receiveChunk_attains kept reach led follows (realizes.pending progress pending)
          matched.2.1
      · split
        · exact refused
        · exact receiveChunk_attains kept reach led follows follows.fresh rfl
    · split
      · exact refused
      · exact receiveChunk_attains kept reach led follows follows.fresh rfl

theorem handleInstallSnapshot_attains (start : Passes setting v a n n)
    (asked : req.Follows a setting.codec) (stored : Stored base disk n) :
    (n.handleInstallSnapshot cfg req).wp store
      (fun r disk => Stored base disk r.1 ∧ Attains setting v a n (Received setting v req r.2) r.1)
      (Stops (Stored base) (Passes setting v a n)) disk := by
  refine handleInstallSnapshot_tracked (stored_tracks base) stored start ?_ ?_ ?_
  · exact fun _ _ => start.follow req.term req.leaderID
  · exact fun m passes role current => collectChunk_attains passes asked role current
  · exact start.attains fun _ success => nomatch success

end Install

end Node

end GoRaftKV.Raft
