import GoRaftKV.Raft.Elections

/-! The loops that count: the votes of `startElection`, and the goroutines and channels of
`ensureQuorum`. -/

namespace GoRaftKV.Raft

open Storage Library

/-- How the loop of `startElection` over the results of its peers ends. -/
inductive Verdict where
  | lead
  | stepDown (term : Nat)
  | lapse
  deriving DecidableEq, Repr

/-- The loop, with the votes counted so far. A result is `none` when the RPC has failed; the list
ends when all peers have been heard or the context is done. -/
def countVotes (quorum term : Nat) : Nat → List (Option RequestVoteResponse) → Verdict
  | _, [] => .lapse
  | votes, none :: results => countVotes quorum term votes results
  | votes, some resp :: results =>
      if term < resp.term then .stepDown resp.term
      else if resp.voteGranted = true then
        if quorum ≤ votes + 1 then .lead else countVotes quorum term (votes + 1) results
      else countVotes quorum term votes results

/-- `startElection` after its first section. -/
def Config.electionVerdict (cfg : Config) (term : Nat)
    (results : List (Option RequestVoteResponse)) : Verdict :=
  if cfg.quorum = 1 then .lead else countVotes cfg.quorum term 1 results

def grants (result : Option RequestVoteResponse) : Bool := result.any fun resp => resp.voteGranted

section Votes

variable {quorum term votes : Nat} {results : List (Option RequestVoteResponse)}

theorem countVotes_lead (leads : countVotes quorum term votes results = .lead) :
    quorum ≤ votes + results.countP grants := by
  fun_induction countVotes quorum term votes results with
  | case1 => cases leads
  | case2 votes results ih => simpa [grants] using ih leads
  | case3 votes resp results later => cases leads
  | case4 votes resp results _ yes enough =>
      have counted : (some resp :: results).countP grants = results.countP grants + 1 :=
        List.countP_cons_of_pos (by simpa [grants] using yes)
      omega
  | case5 votes resp results _ yes more ih =>
      have counted : (some resp :: results).countP grants = results.countP grants + 1 :=
        List.countP_cons_of_pos (by simpa [grants] using yes)
      have rest := ih leads
      omega
  | case6 votes resp results _ no ih =>
      have same : (some resp :: results).countP grants = results.countP grants :=
        List.countP_cons_of_neg (by simpa [grants] using no)
      rw [same]
      exact ih leads

theorem countVotes_stepDown {later : Nat}
    (behind : countVotes quorum term votes results = .stepDown later) :
    term < later ∧ ∃ resp, some resp ∈ results ∧ resp.term = later := by
  fun_induction countVotes quorum term votes results with
  | case1 => cases behind
  | case2 votes results ih =>
      rcases ih behind with ⟨newer, resp, member, same⟩
      exact ⟨newer, resp, List.mem_cons_of_mem _ member, same⟩
  | case3 votes resp results newer =>
      cases behind
      exact ⟨newer, resp, List.mem_cons_self, rfl⟩
  | case4 => cases behind
  | case5 votes resp results _ _ _ ih =>
      rcases ih behind with ⟨newer, resp, member, same⟩
      exact ⟨newer, resp, List.mem_cons_of_mem _ member, same⟩
  | case6 votes resp results _ _ ih =>
      rcases ih behind with ⟨newer, resp, member, same⟩
      exact ⟨newer, resp, List.mem_cons_of_mem _ member, same⟩

theorem countVotes_lapse (short : votes < quorum)
    (lapses : countVotes quorum term votes results = .lapse) :
    votes + results.countP grants < quorum ∧ ∀ resp, some resp ∈ results → resp.term ≤ term := by
  fun_induction countVotes quorum term votes results with
  | case1 => exact ⟨short, by simp⟩
  | case2 votes results ih =>
      rcases ih short lapses with ⟨few, old⟩
      refine ⟨by simpa [grants] using few, fun resp member => old resp ?_⟩
      simpa using member
  | case3 => cases lapses
  | case4 => cases lapses
  | case5 votes resp results recent yes more ih =>
      have counted : (some resp :: results).countP grants = results.countP grants + 1 :=
        List.countP_cons_of_pos (by simpa [grants] using yes)
      rcases ih (by omega) lapses with ⟨few, old⟩
      refine ⟨by omega, fun other member => ?_⟩
      rcases List.mem_cons.mp member with same | rest
      · cases same
        omega
      · exact old other rest
  | case6 votes resp results recent no ih =>
      have same : (some resp :: results).countP grants = results.countP grants :=
        List.countP_cons_of_neg (by simpa [grants] using no)
      rcases ih short lapses with ⟨few, old⟩
      refine ⟨by omega, fun other member => ?_⟩
      rcases List.mem_cons.mp member with same | rest
      · cases same
        omega
      · exact old other rest

end Votes

namespace Cluster

variable {setting : Setting} {w : Cluster} {campaign : Campaign}

/-- Every peer is heard at most once, and every response is an answer to the campaign's own
request. -/
structure Heard (w : Cluster) (setting : Setting) (campaign : Campaign)
    (received : List (NodeId × Option RequestVoteResponse)) : Prop where
  once : (received.map Prod.fst).Nodup
  genuine : ∀ peer resp, (peer, some resp) ∈ received →
    peer ∈ (setting.config campaign.node).peerAddrs ∧ ∃ number issued,
      (number, .vote resp) ∈ w.replies ∧
      w.calls[number]? = some ⟨campaign.node, peer, .vote campaign.request, issued⟩

variable {received : List (NodeId × Option RequestVoteResponse)}

theorem Heard.granted (heard : w.Heard setting campaign received) :
    (received.map Prod.snd).countP grants ≤ (w.granted setting campaign).card := by
  have subset : ((received.filter fun result => grants result.2).map Prod.fst).toFinset ⊆
      w.granted setting campaign := by
    intro peer member
    simp only [List.mem_toFinset, List.mem_map, List.mem_filter] at member
    rcases member with ⟨⟨other, result⟩, ⟨inside, yes⟩, rfl⟩
    cases result with
    | none => cases yes
    | some resp =>
        rcases heard.genuine other resp inside with ⟨remote, number, issued, replied, found⟩
        exact granted_of_reply remote replied yes found
  have distinct : ((received.filter fun result => grants result.2).map Prod.fst).Nodup :=
    heard.once.sublist (List.filter_sublist.map Prod.fst)
  calc
    (received.map Prod.snd).countP grants =
    (received.filter fun result => grants result.2).length := by
      rw [List.countP_map, List.countP_eq_length_filter]
      rfl
    _ = ((received.filter fun result => grants result.2).map Prod.fst).toFinset.card := by
      rw [List.toFinset_card_of_nodup distinct, List.length_map]
    _ ≤ (w.granted setting campaign).card := Finset.card_le_card subset

/-- What the cluster must be able to do, or what must hold, when the loop of campaign `number`
ends. -/
def Endorses (w : Cluster) (setting : Setting) (number : Nat) (campaign : Campaign)
    (received : List (NodeId × Option RequestVoteResponse)) (fates : List Fate) : Verdict → Prop
  | .lead => w.server setting (.win number fates) =
      some ⟨campaign.node, .becomeLeader campaign.request.term, fates, 0⟩
  | .stepDown term => ∃ answer call, w.server setting (.reply answer fates) =
      some ⟨campaign.node, .stepDown term "", fates, call⟩
  | .lapse => 1 + (received.map Prod.snd).countP grants < (setting.config campaign.node).quorum ∧
      ∀ peer resp, (peer, some resp) ∈ received → resp.term ≤ campaign.request.term

/-- However the loop of `startElection` ends, whichever results have arrived in whichever order: if
it makes its node the leader, the election can be won; if it steps down, an answer with that term
can be taken in; and it lapses only with fewer votes than a quorum and no newer term among the
results. -/
theorem election_counted (number : Nat) (standing : w.campaigns[number]? = some campaign)
    (heard : w.Heard setting campaign received) (fates : List Fate) :
    w.Endorses setting number campaign received fates
      ((setting.config campaign.node).electionVerdict campaign.request.term
        (received.map Prod.snd)) := by
  have counted := heard.granted
  unfold Config.electionVerdict
  split
  · have enough : (setting.config campaign.node).quorum ≤ 1 +
        (w.granted setting campaign).card := by omega
    simp only [Endorses, server, standing, if_pos enough]
  rename_i several
  have short : 1 < (setting.config campaign.node).quorum := by
    have least : 0 < (setting.config campaign.node).quorum := Nat.succ_pos _
    omega
  cases verdict : countVotes (setting.config campaign.node).quorum campaign.request.term 1
      (received.map Prod.snd) with
  | lead =>
      have votes := countVotes_lead verdict
      have enough : (setting.config campaign.node).quorum ≤ 1 +
          (w.granted setting campaign).card := by omega
      simp only [Endorses, server, standing, if_pos enough]
  | stepDown term =>
      rcases countVotes_stepDown verdict with ⟨newer, resp, member, rfl⟩
      rcases List.mem_map.mp member with ⟨⟨peer, result⟩, inside, same⟩
      cases same
      rcases heard.genuine peer resp inside with ⟨-, call, issued, replied, found⟩
      rcases List.getElem?_of_mem replied with ⟨answer, place⟩
      refine ⟨answer, call, ?_⟩
      simp only [server, place, found, Call.replied, if_pos newer, Option.map_some]
  | lapse =>
      rcases countVotes_lapse short verdict with ⟨few, old⟩
      exact ⟨few, fun peer resp member => old resp (List.mem_map.mpr ⟨_, member, rfl⟩)⟩

def polled : Cluster where
  calls := [⟨"a", "b", .vote ⟨1, "a", 0, 0⟩, 0⟩]
  replies := [(0, .vote { term := 1, voteGranted := true })]
  campaigns := [⟨"a", ⟨1, "a", 0, 0⟩⟩]

theorem election_counted_polled :
    polled.Heard trioSetting ⟨"a", ⟨1, "a", 0, 0⟩⟩
      [("c", none), ("b", some { term := 1, voteGranted := true })] ∧
    polled.server trioSetting (.win 0 []) = some ⟨"a", .becomeLeader 1, [], 0⟩ := by
  have heard : polled.Heard trioSetting ⟨"a", ⟨1, "a", 0, 0⟩⟩
      [("c", none), ("b", some { term := 1, voteGranted := true })] := by
    refine ⟨by decide, fun peer resp member => ?_⟩
    simp only [List.mem_cons, Prod.mk.injEq, reduceCtorEq, and_false, List.not_mem_nil, or_false,
      false_or, Option.some.injEq] at member
    rcases member with ⟨rfl, rfl⟩
    exact ⟨by decide, 0, 0, List.mem_singleton.mpr rfl, rfl⟩
  exact ⟨heard, election_counted 0 rfl heard []⟩

end Cluster

/-- Which case of the final `select` of `ensureQuorum` has been taken. -/
inductive Selected where
  | quorum
  | done
  | cancelled
  deriving DecidableEq, Repr

/-- The counters, channels and goroutines of one `ensureQuorum` call. The goroutines of `asking`
are still inside `replicateToPeerForRead`, those of `counted` have counted their result and will
call `signal`. A channel is true while it holds its one element. `oks` is a ghost: the peers that
have been counted as acknowledgements. -/
structure Barrier where
  asking : Finset NodeId
  counted : Finset NodeId := ∅
  acked : Nat := 1
  failed : Nat := 0
  ackedAt : Bool := false
  quorumCh : Bool := false
  doneCh : Bool := false
  selected : Option Selected := none
  oks : Finset NodeId := ∅

namespace Barrier

def start (cfg : Config) : Barrier where
  asking := cfg.peerAddrs

def count (b : Barrier) (peer : NodeId) (ok : Bool) : Barrier :=
  { b with
    asking := b.asking.erase peer
    counted := insert peer b.counted
    acked := if ok = true then b.acked + 1 else b.acked
    failed := if ok = true then b.failed else b.failed + 1
    oks := if ok = true then insert peer b.oks else b.oks }

/-- The `signal` closure, called by the goroutine of `peer`. -/
def signal (b : Barrier) (cfg : Config) (peer : NodeId) : Barrier :=
  let b := { b with counted := b.counted.erase peer }
  if cfg.quorum ≤ b.acked then { b with ackedAt := true, quorumCh := true }
  else if cfg.peerAddrs.card + 1 ≤ b.acked + b.failed then { b with doneCh := true }
  else b

/-- The goroutines and the caller in any interleaving. Every section is atomic under the barrier's
own mutex. -/
inductive Step (cfg : Config) (b : Barrier) : Barrier → Prop
  | count (peer : NodeId) (ok : Bool) (pending : peer ∈ b.asking) : Step cfg b (b.count peer ok)
  | signal (peer : NodeId) (counted : peer ∈ b.counted) : Step cfg b (b.signal cfg peer)
  | quorum (waits : b.selected = none) (ready : b.quorumCh = true) :
      Step cfg b { b with quorumCh := false, selected := some .quorum }
  | done (waits : b.selected = none) (ready : b.doneCh = true) :
      Step cfg b { b with doneCh := false, selected := some .done }
  | cancelled (waits : b.selected = none) : Step cfg b { b with selected := some .cancelled }

abbrev Run (cfg : Config) : Barrier → Barrier → Prop := Relation.ReflTransGen (Step cfg)

/-- What `ensureQuorum` returns for the barrier begun in `term`, on a node that is then `n`. The
error is `none` when it is the context's. -/
def result (b : Barrier) (cfg : Config) (n : Node) (term : Nat) :
    Option (Except (Option NodeError) Nat) :=
  b.selected.map fun
    | .quorum =>
        if n.stopped = true then .error (some .nodeStopped)
        else if n.role ≠ .leader ∨ n.currentTerm ≠ term then .error (some (n.notLeaderLocked cfg))
        else if b.ackedAt = false then .error (some .noQuorum)
        else .ok term
    | .done => .error (some .noQuorum)
    | .cancelled => .error none

/-- What holds in every interleaving. -/
structure Counts (cfg : Config) (b : Barrier) : Prop where
  asking : b.asking ⊆ cfg.peerAddrs
  oks : b.oks ⊆ cfg.peerAddrs \ b.asking
  acked : b.acked = 1 + b.oks.card
  total : b.acked + b.failed + b.asking.card = cfg.peerAddrs.card + 1
  reached : b.ackedAt = true → cfg.quorum ≤ b.acked
  quorumCh : b.quorumCh = true ∨ b.selected = some .quorum → b.ackedAt = true
  doneCh : b.doneCh = true ∨ b.selected = some .done → b.asking = ∅ ∧ b.acked < cfg.quorum
  settled : b.asking = ∅ → b.counted = ∅ → cfg.peerAddrs.Nonempty →
    b.quorumCh = true ∨ b.doneCh = true ∨ b.selected.isSome = true

variable {cfg : Config} {b c : Barrier}

theorem counts_start : Counts cfg (start cfg) where
  asking := Finset.Subset.refl _
  oks := Finset.empty_subset _
  acked := rfl
  total := by simp [start, Nat.add_comm]
  reached := by rintro ⟨⟩
  quorumCh := by simp [start]
  doneCh := by simp [start]
  settled none _ some := by
    rw [show (start cfg).asking = cfg.peerAddrs from rfl] at none
    exact absurd none some.ne_empty

theorem Counts.count (counts : Counts cfg b) {peer : NodeId} (pending : peer ∈ b.asking)
    (ok : Bool) :
    Counts cfg (b.count peer ok) := by
  have fresh : peer ∉ b.oks := fun inside => (Finset.mem_sdiff.mp (counts.oks inside)).2 pending
  have fewer := Finset.card_erase_add_one pending
  have total := counts.total
  have acked := counts.acked
  have some : b.asking ≠ ∅ := Finset.ne_empty_of_mem pending
  refine ⟨(Finset.erase_subset _ _).trans counts.asking, ?_, ?_, ?_, ?_, counts.quorumCh, ?_, ?_⟩
  · intro other member
    have known : other = peer ∨ other ∈ b.oks := by
      simp only [Barrier.count] at member
      split at member
      · exact Finset.mem_insert.mp member
      · exact Or.inr member
    rcases known with rfl | old
    · exact Finset.mem_sdiff.mpr ⟨counts.asking pending, Finset.notMem_erase _ _⟩
    · rcases Finset.mem_sdiff.mp (counts.oks old) with ⟨remote, heard⟩
      exact Finset.mem_sdiff.mpr ⟨remote, fun still => heard (Finset.mem_of_mem_erase still)⟩
  · cases ok with
    | true => simp [Barrier.count, Finset.card_insert_of_notMem fresh, acked, Nat.add_assoc]
    | false => simpa [Barrier.count] using acked
  · cases ok <;> simp only [Barrier.count, if_true, Bool.false_eq_true, if_false] <;> omega
  · intro reached
    have enough := counts.reached reached
    cases ok <;> simp only [Barrier.count, if_true, Bool.false_eq_true, if_false] <;> omega
  · intro finished
    exact absurd (counts.doneCh finished).1 some
  · intro _ empty
    exact absurd empty (Finset.insert_ne_empty _ _)

theorem Counts.signal (counts : Counts cfg b) (peer : NodeId) : Counts cfg (b.signal cfg peer) := by
  have total := counts.total
  unfold Barrier.signal
  simp only
  split
  · rename_i enough
    refine ⟨counts.asking, counts.oks, counts.acked, counts.total, fun _ => enough, fun _ =>
      rfl, ?_,
      fun _ _ _ => Or.inl rfl⟩
    intro finished
    exact counts.doneCh finished
  · rename_i short
    split
    · rename_i all
      have heard : b.asking.card = 0 := by omega
      exact ⟨counts.asking, counts.oks, counts.acked, counts.total, counts.reached, counts.quorumCh,
        fun _ => ⟨Finset.card_eq_zero.mp heard, Nat.lt_of_not_le short⟩, fun _ _ _ =>
          Or.inr (Or.inl rfl)⟩
    · rename_i more
      refine ⟨counts.asking, counts.oks, counts.acked, counts.total, counts.reached,
        counts.quorumCh, counts.doneCh, ?_⟩
      intro none
      have heard : b.asking.card = 0 := Finset.card_eq_zero.mpr none
      omega

theorem Counts.step (counts : Counts cfg b) (step : Step cfg b c) : Counts cfg c := by
  cases step with
  | count peer ok pending => exact counts.count pending ok
  | signal peer counted => exact counts.signal peer
  | quorum waits ready =>
      refine ⟨counts.asking, counts.oks, counts.acked, counts.total, counts.reached, fun _ =>
        ?_, ?_,
        fun _ _ _ => Or.inr (Or.inr rfl)⟩
      · exact counts.quorumCh (Or.inl ready)
      · intro finished
        refine counts.doneCh (Or.inl ?_)
        simpa using finished
  | done waits ready =>
      refine ⟨counts.asking, counts.oks, counts.acked, counts.total, counts.reached, ?_, fun _ =>
        ?_,
        fun _ _ _ => Or.inr (Or.inr rfl)⟩
      · intro finished
        refine counts.quorumCh (Or.inl ?_)
        simpa using finished
      · exact counts.doneCh (Or.inl ready)
  | cancelled waits =>
      refine ⟨counts.asking, counts.oks, counts.acked, counts.total, counts.reached, ?_, ?_,
        fun _ _ _ => Or.inr (Or.inr rfl)⟩
      · intro finished
        refine counts.quorumCh (Or.inl ?_)
        simpa using finished
      · intro finished
        refine counts.doneCh (Or.inl ?_)
        simpa using finished

theorem counts_of_run (run : Run cfg (start cfg) b) : Counts cfg b := by
  induction run with
  | refl => exact counts_start
  | tail _ step ih => exact ih.step step

theorem Counts.passed (counts : Counts cfg b) {n : Node} {term other : Nat}
    (passed : b.result cfg n term = some (.ok other)) :
    other = term ∧ n.stopped = false ∧ n.role = .leader ∧ n.currentTerm = term ∧
      cfg.quorum ≤ 1 + b.oks.card := by
  simp only [result, Option.map_eq_some_iff] at passed
  rcases passed with ⟨selected, taken, same⟩
  cases selected with
  | done => cases same
  | cancelled => cases same
  | quorum =>
      simp only at same
      split at same
      · cases same
      split at same
      · cases same
      split at same
      · cases same
      · rename_i running leads reached
        push Not at leads
        have enough := counts.reached (by simpa using reached)
        rw [counts.acked] at enough
        exact ⟨(Except.ok.inj same).symm, by simpa using running, leads.1, leads.2, enough⟩

theorem Counts.abandoned (counts : Counts cfg b) {n : Node} {term : Nat}
    (abandoned : b.result cfg n term = some (.error (some .noQuorum))) :
    b.asking = ∅ ∧ 1 + b.oks.card < cfg.quorum := by
  have short (finished : b.selected = some .done) : b.asking = ∅ ∧ 1 + b.oks.card < cfg.quorum := by
    have heard := counts.doneCh (Or.inr finished)
    rw [counts.acked] at heard
    exact heard
  simp only [result, Option.map_eq_some_iff] at abandoned
  rcases abandoned with ⟨selected, taken, same⟩
  cases selected with
  | done => exact short taken
  | cancelled => cases same
  | quorum =>
      have reached := counts.quorumCh (Or.inr taken)
      simp only [reached, Bool.true_eq_false, if_false] at same
      split at same
      · cases same
      split at same <;> cases same

/-- Every interleaving of the goroutines of `ensureQuorum` with its caller: the barrier passes only
on a running leader of its term, with the fresh acknowledgements of a quorum, and the read that has
collected them may go on; the `ackedAt` check of a caller that has received from `quorumCh` never
fails; it is given up for want of a quorum only after every peer has answered and too few have
acknowledged; and once all goroutines have ended, a caller that still waits finds exactly the
channel that fits the count. -/
theorem ensureQuorum_counted (run : Run cfg (start cfg) b) (n : Node) (term : Nat) :
    (∀ other, b.result cfg n term = some (.ok other) →
      other = term ∧ n.stopped = false ∧ n.role = .leader ∧ n.currentTerm = term ∧
      b.oks ⊆ cfg.peerAddrs ∧ cfg.quorum ≤ 1 + b.oks.card ∧
      ∀ read since acked clock, read.stage = .barrier term since acked → b.oks ⊆ acked →
        Read.advance read cfg n clock = some (.confirmed term)) ∧
    (b.selected = some .quorum → b.ackedAt = true) ∧
    (b.result cfg n term = some (.error (some .noQuorum)) → b.asking = ∅ ∧
      1 + b.oks.card < cfg.quorum) ∧
    (b.asking = ∅ → b.counted = ∅ → cfg.peerAddrs.Nonempty → b.selected = none →
      (b.quorumCh = true ↔ cfg.quorum ≤ 1 + b.oks.card) ∧
      (b.doneCh = true ↔ 1 + b.oks.card < cfg.quorum)) := by
  have counts := counts_of_run run
  refine ⟨?_, fun taken => counts.quorumCh (Or.inr taken), counts.abandoned, ?_⟩
  · intro other passed
    rcases counts.passed passed with ⟨same, running, leads, current, enough⟩
    refine ⟨same, running, leads, current, counts.oks.trans Finset.sdiff_subset, enough, ?_⟩
    intro read since acked clock stage inside
    have more : cfg.quorum ≤ 1 + acked.card :=
      enough.trans (Nat.add_le_add_left (Finset.card_le_card inside) 1)
    simp [Read.advance, running, leads, stage, more, current]
  · intro heard silent peers waits
    have pass (ready : b.quorumCh = true) : cfg.quorum ≤ 1 + b.oks.card := by
      have enough := counts.reached (counts.quorumCh (Or.inl ready))
      rwa [counts.acked] at enough
    have fail (ready : b.doneCh = true) : 1 + b.oks.card < cfg.quorum := by
      have short := (counts.doneCh (Or.inl ready)).2
      rwa [counts.acked] at short
    have some : b.quorumCh = true ∨ b.doneCh = true := by
      rcases counts.settled heard silent peers with ready | ready | taken
      · exact Or.inl ready
      · exact Or.inr ready
      · rw [waits] at taken
        cases taken
    constructor
    · refine ⟨pass, fun enough => some.resolve_right fun ready => ?_⟩
      exact absurd (fail ready) (Nat.not_lt.mpr enough)
    · refine ⟨fail, fun short => some.resolve_left fun ready => ?_⟩
      exact absurd (pass ready) (Nat.not_le.mpr short)

def acknowledged : Barrier := ((start (trio "a")).count "b" true).signal (trio "a") "b"

theorem ensureQuorum_counted_acknowledged : ∃ b, Run (trio "a") (start (trio "a")) b ∧
    b.result (trio "a") { role := .leader, currentTerm := 1 } 1 = some (.ok 1) ∧
    (trio "a").quorum ≤ 1 + b.oks.card := by
  have run : Run (trio "a") (start (trio "a"))
      { acknowledged with quorumCh := false, selected := some .quorum } := by
    refine .tail (.tail (.single (.count "b" true (by decide))) (.signal "b" (by decide))) ?_
    exact .quorum (by decide) (by decide)
  have passed : result { acknowledged with quorumCh := false, selected := some .quorum } (trio "a")
      { role := .leader, currentTerm := 1 } 1 = some (.ok 1) := by rfl
  rcases (ensureQuorum_counted run { role := .leader, currentTerm := 1 } 1).1 1 passed with
    ⟨-, -, -, -, -, enough, -⟩
  exact ⟨_, run, passed, enough⟩

end Barrier

end GoRaftKV.Raft
