import GoRaftKV.Library.ConsensusSafety

namespace GoRaftKV.Library.Consensus

variable {N E : Type} {termOf : E → ℕ} {quorum : Finset N → Prop} {a b : State N E}

section Monotone

variable (grows : Extends a b)

include grows

theorem Extends.electionSome {t : ℕ} (elected : (a.election t).isSome) : (b.election t).isSome := by
  obtain ⟨won, elected⟩ := Option.isSome_iff_exists.mp elected
  rw [grows.election t won elected]
  rfl

theorem Extends.take {t index : ℕ} (bound : index ≤ (a.leaderLog t).length) :
    (b.leaderLog t).take index = (a.leaderLog t).take index := by
  obtain ⟨rest, extended⟩ := grows.leaderLog t
  rw [← extended, List.take_append_of_le_length bound]

theorem Extends.getElem {t position : ℕ} {entry : E}
    (present : (a.leaderLog t)[position]? = some entry) :
    (b.leaderLog t)[position]? = some entry := by
  obtain ⟨rest, extended⟩ := grows.leaderLog t
  rw [← extended, List.getElem?_append_left (List.getElem?_eq_some_iff.mp present).1]
  exact present

theorem Grounded.mono {log : List E} (grounded : Grounded termOf a log) :
    Grounded termOf b log := by
  intro position entry present
  obtain ⟨led, produced⟩ := grounded position entry present
  exact ⟨grows.electionSome led, produced.trans (grows.leaderLog _)⟩

theorem Dropped.mono {t index bound limit : ℕ} (reach : index ≤ (a.leaderLog t).length)
    (later : bound ≤ limit) (dropped : Dropped a t index bound) : Dropped b t index limit := by
  obtain ⟨s, won, after, before, elected, missing⟩ := dropped
  refine ⟨s, won, after, before.trans later, grows.election s won elected, ?_⟩
  rwa [grows.take reach]

theorem Kept.mono {t index bound limit : ℕ} {log : List E} (reach : index ≤ (a.leaderLog t).length)
    (later : bound ≤ limit) (kept : Kept a t index log bound) : Kept b t index log limit := by
  rcases kept with held | dropped
  · left
    rwa [grows.take reach]
  · exact Or.inr (dropped.mono grows reach later)

theorem Chosen.mono {bound limit : ℕ} {log : List E} (later : bound ≤ limit)
    (chosen : Chosen a bound log) : Chosen b limit log := by
  rcases chosen with rfl | ⟨t, before, initial⟩
  · exact Or.inl rfl
  · refine Or.inr ⟨t, before.trans later, ?_⟩
    obtain ⟨rest, extended⟩ := grows.leaderLog t
    rw [← extended]
    refine initial.trans ?_
    rw [List.take_append]
    exact (List.take_isPrefix_take.mpr (Or.inl (grows.decided t))).trans (List.prefix_append _ _)

end Monotone

section Aligned

theorem aligned_holds (t index : ℕ) (log : List E) :
    (a.leaderLog t).take index <+: a.aligned t index log := by
  unfold State.aligned
  split
  · assumption
  · exact List.prefix_rfl

theorem aligned_cases (t index : ℕ) (log : List E) :
    a.aligned t index log = log ∨
      (a.aligned t index log = (a.leaderLog t).take index ∧
        ¬ (a.leaderLog t).take index <+: log) := by
  unfold State.aligned
  split
  · exact Or.inl rfl
  · exact Or.inr ⟨rfl, by assumption⟩

theorem Inv.aligned_kept (inv : Inv termOf quorum a) {t later index bound : ℕ} {log : List E}
    (after : t ≤ later) (led : (a.election later).isSome) (kept : Kept a t bound log later) :
    Kept a t bound (a.aligned later index log) later := by
  rcases kept with held | dropped
  swap
  · exact Or.inr dropped
  rcases aligned_cases (a := a) later index log with same | ⟨replaced, missing⟩
  · left
    rwa [same]
  rw [replaced]
  have comparable : (a.leaderLog t).take bound <+: a.leaderLog later →
      (a.leaderLog t).take bound <+: (a.leaderLog later).take index := by
    intro contained
    rcases List.prefix_or_prefix_of_prefix contained ( List.take_prefix index _) with
      inside | outside
    · exact inside
    · exact absurd (outside.trans held) missing
  rcases after.eq_or_lt with rfl | after
  · exact Or.inl (comparable ( List.take_prefix _ _))
  · obtain ⟨won, elected⟩ := Option.isSome_iff_exists.mp led
    by_cases started : (a.leaderLog t).take bound <+: won.log
    · obtain ⟨own, shape, -⟩ := inv.leaderLogShape later won elected
      exact Or.inl (comparable (started.trans ⟨own, shape.symm⟩))
    · exact Or.inr ⟨later, won, after, le_rfl, elected, started⟩

end Aligned

variable [DecidableEq N]

theorem extends_setRole (v : N) (role : Role) : Extends a (a.setRole v role) :=
  ⟨fun _ => le_rfl, fun _ _ _ h => h, fun _ h => h, fun _ _ h => h, fun _ => List.prefix_rfl,
    fun _ h => h, fun _ => le_rfl⟩

theorem extends_advance {v : N} {t : ℕ} (later : a.term v < t) : Extends a (a.advance v t) where
  term := by
    intro u
    by_cases same : u = v
    · subst same
      simp only [State.advance, Function.update_self]
      exact later.le
    · simp only [State.advance, Function.update_of_ne same, le_refl]
  campaign := fun _ _ _ h => h
  ballots := fun _ h => h
  election := fun _ _ h => h
  leaderLog := fun _ => List.prefix_rfl
  acks := fun _ h => h
  decided := fun _ => le_rfl

theorem extends_stand (inv : Inv termOf quorum a) {v : N} {t : ℕ} (later : a.term v < t) :
    Extends a (a.stand v t) where
  term := by
    intro u
    by_cases same : u = v
    · subst same
      simp only [State.stand, Function.update_self]
      exact later.le
    · simp only [State.stand, Function.update_of_ne same, le_refl]
  campaign := by
    intro c s log standing
    by_cases same : c = v
    · subst same
      have old : s ≠ t := by
        have bound := (inv.campaignTerm c s log standing).2
        omega
      simp only [State.stand, Function.update_self, Function.update_of_ne old]
      exact standing
    · simp only [State.stand, Function.update_of_ne same]
      exact standing
  ballots := Set.subset_insert _ _
  election := fun _ _ h => h
  leaderLog := fun _ => List.prefix_rfl
  acks := fun _ h => h
  decided := fun _ => le_rfl

theorem extends_grant (v c : N) : Extends a (a.grant v c) :=
  ⟨fun _ => le_rfl, fun _ _ _ h => h, Set.subset_insert _ _, fun _ _ h => h,
    fun _ => List.prefix_rfl, fun _ h => h, fun _ => le_rfl⟩

theorem extends_elect (inv : Inv termOf quorum a) {c : N} {electors : Finset N}
    (vacant : a.election (a.term c) = none) : Extends a (a.elect c electors) where
  term := fun _ => le_rfl
  campaign := fun _ _ _ h => h
  ballots := fun _ h => h
  election := by
    intro t won elected
    have other : t ≠ a.term c := by
      rintro rfl
      rw [vacant] at elected
      cases elected
    simp only [State.elect, Function.update_of_ne other]
    exact elected
  leaderLog := by
    intro t
    by_cases same : t = a.term c
    · subst same
      rw [inv.leaderLogEmpty _ vacant]
      exact List.nil_prefix
    · simp only [State.elect, Function.update_of_ne same]
      exact List.prefix_rfl
  acks := fun _ h => h
  decided := fun _ => le_rfl

theorem extends_propose (inv : Inv termOf quorum a) {c : N} {entry : E}
    (leads : a.role c = .leader) :
    Extends a (a.propose c entry) where
  term := fun _ => le_rfl
  campaign := fun _ _ _ h => h
  ballots := fun _ h => h
  election := fun _ _ h => h
  leaderLog := by
    intro t
    by_cases same : t = a.term c
    · subst same
      obtain ⟨won, -, -, log⟩ := inv.leads c leads
      simp only [State.propose, Function.update_self, log]
      exact List.prefix_append _ _
    · simp only [State.propose, Function.update_of_ne same]
      exact List.prefix_rfl
  acks := Set.subset_insert _ _
  decided := fun _ => le_rfl

theorem extends_accept (v : N) (index : ℕ) : Extends a (a.accept v index) :=
  ⟨fun _ => le_rfl, fun _ _ _ h => h, fun _ h => h, fun _ _ h => h, fun _ => List.prefix_rfl,
    Set.subset_insert _ _, fun _ => le_rfl⟩

omit [DecidableEq N] in
theorem extends_decide (c : N) (index : ℕ) : Extends a (a.decide c index) where
  term := fun _ => le_rfl
  campaign := fun _ _ _ h => h
  ballots := fun _ h => h
  election := fun _ _ h => h
  leaderLog := fun _ => List.prefix_rfl
  acks := fun _ h => h
  decided := by
    intro t
    by_cases same : t = a.term c
    · subst same
      simp only [State.decide, Function.update_self]
      exact le_max_left _ _
    · simp only [State.decide, Function.update_of_ne same, le_refl]

omit [DecidableEq N] in
theorem inv_initial : Inv termOf quorum (State.initial : State N E) := by
  constructor <;> simp [State.initial, Grounded]

theorem Inv.follow (inv : Inv termOf quorum a) (v : N) :
    Inv termOf quorum (a.setRole v .follower) := by
  have roles : ∀ u role, role ≠ .follower → (a.setRole v .follower).role u = role →
      a.role u = role := by
    intro u role active holds
    by_cases same : u = v
    · subst same
      simp only [State.setRole, Function.update_self] at holds
      exact absurd holds.symm active
    · simpa only [State.setRole, Function.update_of_ne same] using holds
  exact
    { inv with
      candidateLog := fun c standing => inv.candidateLog c (roles c _ (by simp) standing)
      electionWon := by
        intro t won elected
        obtain ⟨enough, campaign, retired, ballots⟩ := inv.electionWon t won elected
        refine ⟨enough, campaign, ?_, ballots⟩
        intro current standing
        exact retired current (roles _ _ (by simp) standing)
      leads := fun c leads => inv.leads c (roles c _ (by simp) leads) }

theorem Inv.advance (inv : Inv termOf quorum a) {v : N} {t : ℕ} (later : a.term v < t) :
    Inv termOf quorum (a.advance v t) := by
  have grows := extends_advance later
  have other : ∀ u, u ≠ v → (a.advance v t).term u = a.term u ∧
      (a.advance v t).voted u = a.voted u ∧ (a.advance v t).role u = a.role u := by
    intro u differs
    simp only [State.advance, Function.update_of_ne differs, and_self]
  have atTerm : (a.advance v t).term v = t := by simp [State.advance]
  have atRole : (a.advance v t).role v = .follower := by simp [State.advance]
  exact
    { inv with
      ballotTerm := by
        intro ballot member
        obtain ⟨bound, voted⟩ := inv.ballotTerm ballot member
        refine ⟨bound.trans (grows.term _), ?_⟩
        by_cases same : ballot.voter = v
        · intro current
          rw [same, atTerm] at current
          rw [same] at bound
          omega
        · rw [(other _ same).1, (other _ same).2.1]
          exact voted
      campaignTerm := by
        intro c s log standing
        obtain ⟨positive, bound⟩ := inv.campaignTerm c s log standing
        exact ⟨positive, bound.trans (grows.term c)⟩
      candidateLog := by
        intro c standing
        by_cases same : c = v
        · rw [same, atRole] at standing
          cases standing
        · rw [(other c same).2.2] at standing
          rw [(other c same).1]
          exact inv.candidateLog c standing
      electionWon := by
        intro s won elected
        obtain ⟨enough, campaign, retired, ballots⟩ := inv.electionWon s won elected
        refine ⟨enough, campaign, ?_, ballots⟩
        by_cases same : won.leader = v
        · rw [same, atRole]
          simp
        · rw [(other _ same).1, (other _ same).2.2]
          exact retired
      leads := by
        intro c leads
        by_cases same : c = v
        · rw [same, atRole] at leads
          cases leads
        · rw [(other c same).2.2] at leads
          rw [(other c same).1]
          exact inv.leads c leads
      logTerm := fun u entry member => (inv.logTerm u entry member).trans (grows.term u)
      ackTerm := by
        intro ack member
        obtain ⟨led, bound, reach⟩ := inv.ackTerm ack member
        exact ⟨led, bound.trans (grows.term _), reach⟩
      ackLog := by
        intro ack member index bound
        have reach := (inv.ackTerm ack member).2.2
        exact (inv.ackLog ack member index bound).mono grows (bound.trans reach) (grows.term _) }

theorem Inv.stand (inv : Inv termOf quorum a) {v : N} {t : ℕ} (later : a.term v < t) :
    Inv termOf quorum (a.stand v t) := by
  have grows := extends_stand inv later
  have other : ∀ u, u ≠ v → (a.stand v t).term u = a.term u ∧ (a.stand v t).voted u = a.voted u ∧
      (a.stand v t).role u = a.role u ∧ (a.stand v t).campaign u = a.campaign u := by
    intro u differs
    simp only [State.stand, Function.update_of_ne differs, and_self]
  have atTerm : (a.stand v t).term v = t := by simp [State.stand]
  have atVote : (a.stand v t).voted v = some v := by simp [State.stand]
  have atRole : (a.stand v t).role v = .candidate := by simp [State.stand]
  have atCampaign : (a.stand v t).campaign v t = some (a.log v) := by simp [State.stand]
  have older : ∀ entry ∈ a.log v, termOf entry < t := fun entry member =>
    (inv.logTerm v entry member).trans_lt later
  have campaigns : ∀ c s log, (a.stand v t).campaign c s = some log →
      a.campaign c s = some log ∨ (c = v ∧ s = t ∧ log = a.log v) := by
    intro c s log standing
    by_cases same : c = v
    · subst same
      by_cases now : s = t
      · subst now
        rw [atCampaign] at standing
        exact Or.inr ⟨rfl, rfl, (Option.some.inj standing).symm⟩
      · simp only [State.stand, Function.update_self, Function.update_of_ne now] at standing
        exact Or.inl standing
    · rw [(other c same).2.2.2] at standing
      exact Or.inl standing
  exact
    { inv with
      ballotTerm := by
        intro ballot member
        rcases member with rfl | member
        · exact ⟨atTerm.ge, fun _ => atVote⟩
        · obtain ⟨bound, voted⟩ := inv.ballotTerm ballot member
          refine ⟨bound.trans (grows.term _), ?_⟩
          by_cases same : ballot.voter = v
          · intro current
            rw [same, atTerm] at current
            rw [same] at bound
            omega
          · rw [(other _ same).1, (other _ same).2.1]
            exact voted
      ballotUnique := by
        have fresh : ∀ ballot ∈ a.ballots, ballot.voter = v → ballot.term ≠ t := by
          intro ballot member voter current
          have bound := (inv.ballotTerm ballot member).1
          rw [voter] at bound
          omega
        rintro first (rfl | memberFirst) second (rfl | memberSecond) voter current
        · rfl
        · exact absurd current.symm (fresh second memberSecond voter.symm)
        · exact absurd current (fresh first memberFirst voter)
        · exact inv.ballotUnique first memberFirst second memberSecond voter current
      ballotCampaign := by
        rintro ballot (rfl | member)
        · exact ⟨_, atCampaign, Or.inr ⟨rfl, le_rfl⟩⟩
        · obtain ⟨log, standing, recent⟩ := inv.ballotCampaign ballot member
          exact ⟨log, grows.campaign _ _ _ standing, recent⟩
      ballotGrounded := by
        rintro ballot (rfl | member)
        · exact inv.logGrounded v
        · exact inv.ballotGrounded ballot member
      campaignTerm := by
        intro c s log standing
        rcases campaigns c s log standing with standing | ⟨rfl, rfl, rfl⟩
        · obtain ⟨positive, bound⟩ := inv.campaignTerm c s log standing
          exact ⟨positive, bound.trans (grows.term c)⟩
        · exact ⟨by omega, atTerm.ge⟩
      campaignLog := by
        intro c s log standing
        rcases campaigns c s log standing with standing | ⟨rfl, rfl, rfl⟩
        · exact inv.campaignLog c s log standing
        · exact ⟨older, inv.logGrounded _⟩
      candidateLog := by
        intro c standing
        by_cases same : c = v
        · rw [same, atTerm]
          exact atCampaign
        · rw [(other c same).2.2.1] at standing
          rw [(other c same).1, (other c same).2.2.2]
          exact inv.candidateLog c standing
      electionWon := by
        intro s won elected
        obtain ⟨enough, campaign, retired, ballots⟩ := inv.electionWon s won elected
        refine ⟨enough, grows.campaign _ _ _ campaign, ?_, ?_⟩
        · by_cases same : won.leader = v
          · intro current
            have bound := (inv.campaignTerm _ _ _ campaign).2
            rw [same] at bound
            rw [same, atTerm] at current
            omega
          · rw [(other _ same).1, (other _ same).2.2.1]
            exact retired
        · intro u member
          obtain ⟨ballot, cast, rest⟩ := ballots u member
          exact ⟨ballot, Or.inr cast, rest⟩
      leads := by
        intro c leads
        by_cases same : c = v
        · rw [same, atRole] at leads
          cases leads
        · rw [(other c same).2.2.1] at leads
          rw [(other c same).1]
          exact inv.leads c leads
      logTerm := fun u entry member => (inv.logTerm u entry member).trans (grows.term u)
      ackTerm := by
        intro ack member
        obtain ⟨led, bound, reach⟩ := inv.ackTerm ack member
        exact ⟨led, bound.trans (grows.term _), reach⟩
      ackLog := by
        intro ack member index bound
        have reach := (inv.ackTerm ack member).2.2
        exact (inv.ackLog ack member index bound).mono grows (bound.trans reach) (grows.term _)
      ackBallot := by
        rintro ack member ballot (rfl | cast) voter after index bound
        · have reach := (inv.ackTerm ack member).2.2
          have kept := inv.ackLog ack member index bound
          rw [← voter] at kept
          exact kept.mono grows (bound.trans reach) later.le
        · exact inv.ackBallot ack member ballot cast voter after index bound
      ackElection := by
        intro ack member s won elected elector after
        obtain ⟨ballot, cast, rest⟩ := inv.ackElection ack member s won elected elector after
        exact ⟨ballot, Or.inr cast, rest⟩ }

theorem Inv.grant (inv : Inv termOf quorum a) {v c : N} {log : List E}
    (undecided : a.voted v = none ∨ a.voted v = some c)
    (standing : a.campaign c (a.term v) = some log) (recent : UpToDate termOf log (a.log v)) :
    Inv termOf quorum (a.grant v c) := by
  have grows := extends_grant (a := a) v c
  have earlier : ∀ ballot ∈ a.ballots, ballot.voter = v → ballot.term = a.term v →
      ballot.candidate = c := by
    intro ballot member voter current
    have voted := (inv.ballotTerm ballot member).2 (by rw [voter, current])
    rw [voter] at voted
    rcases undecided with none | some
    · rw [none] at voted
      cases voted
    · rw [some] at voted
      exact (Option.some.inj voted).symm
  exact
    { inv with
      ballotTerm := by
        rintro ballot (rfl | member)
        · exact ⟨le_rfl, fun _ => by simp [State.grant]⟩
        · obtain ⟨bound, voted⟩ := inv.ballotTerm ballot member
          refine ⟨bound, ?_⟩
          intro current
          by_cases same : ballot.voter = v
          · have candidate := earlier ballot member same (by rw [← same]; exact current)
            simp [State.grant, same, candidate]
          · simp only [State.grant, Function.update_of_ne same]
            exact voted current
      ballotUnique := by
        rintro first (rfl | memberFirst) second (rfl | memberSecond) voter current
        · rfl
        · exact (earlier second memberSecond voter.symm current.symm).symm
        · exact earlier first memberFirst voter current
        · exact inv.ballotUnique first memberFirst second memberSecond voter current
      ballotCampaign := by
        rintro ballot (rfl | member)
        · exact ⟨log, standing, recent⟩
        · exact inv.ballotCampaign ballot member
      ballotGrounded := by
        rintro ballot (rfl | member)
        · exact inv.logGrounded v
        · exact inv.ballotGrounded ballot member
      electionWon := by
        intro s won elected
        obtain ⟨enough, campaign, retired, ballots⟩ := inv.electionWon s won elected
        refine ⟨enough, campaign, retired, ?_⟩
        intro u member
        obtain ⟨ballot, cast, rest⟩ := ballots u member
        exact ⟨ballot, Or.inr cast, rest⟩
      ackBallot := by
        rintro ack member ballot (rfl | cast) voter after index bound
        · have kept := inv.ackLog ack member index bound
          rw [← voter] at kept
          exact kept
        · exact inv.ackBallot ack member ballot cast voter after index bound
      ackElection := by
        intro ack member s won elected elector after
        obtain ⟨ballot, cast, rest⟩ := inv.ackElection ack member s won elected elector after
        exact ⟨ballot, Or.inr cast, rest⟩ }

section Elections

variable (meet : ∀ first second, quorum first → quorum second → ∃ v, v ∈ first ∧ v ∈ second)

omit [DecidableEq N] in
include meet in
theorem Inv.vacant (inv : Inv termOf quorum a) {c : N} {electors : Finset N}
    (standing : a.role c = .candidate) (enough : quorum electors)
    (won : ∀ v ∈ electors, ∃ ballot ∈ a.ballots,
      ballot.voter = v ∧ ballot.term = a.term c ∧ ballot.candidate = c) :
    a.election (a.term c) = none := by
  cases elected : a.election (a.term c) with
  | none => rfl
  | some winner =>
      obtain ⟨enoughWinner, -, retired, ballots⟩ := inv.electionWon _ winner elected
      obtain ⟨v, inElectors, inWinner⟩ := meet _ _ enough enoughWinner
      obtain ⟨mine, memberMine, voterMine, termMine, candidateMine⟩ := won v inElectors
      obtain ⟨other, memberOther, voterOther, termOther, candidateOther⟩ := ballots v inWinner
      have same : c = winner.leader := by
        rw [← candidateMine, ← candidateOther]
        exact inv.ballotUnique mine memberMine other memberOther (voterMine.trans voterOther.symm)
          (termMine.trans termOther.symm)
      rw [← same] at retired
      exact absurd standing (retired rfl)

include meet in
theorem Inv.elect (inv : Inv termOf quorum a) {c : N} {electors : Finset N}
    (standing : a.role c = .candidate) (enough : quorum electors)
    (won : ∀ v ∈ electors, ∃ ballot ∈ a.ballots,
      ballot.voter = v ∧ ballot.term = a.term c ∧ ballot.candidate = c) :
    Inv termOf quorum (a.elect c electors) := by
  have vacant := inv.vacant meet standing enough won
  have grows : Extends a (a.elect c electors) := extends_elect inv vacant
  have campaign := inv.candidateLog c standing
  have elections : ∀ t winner, (a.elect c electors).election t = some winner →
      (t ≠ a.term c ∧ a.election t = some winner ∧
        (a.elect c electors).leaderLog t = a.leaderLog t) ∨
      (t = a.term c ∧ winner = ⟨c, electors, a.log c⟩ ∧
        (a.elect c electors).leaderLog t = a.log c) := by
    intro t winner elected
    by_cases same : t = a.term c
    · subst same
      simp only [State.elect, Function.update_self, Option.some.injEq] at elected
      exact Or.inr ⟨rfl, elected.symm, by simp [State.elect]⟩
    · simp only [State.elect, Function.update_of_ne same] at elected
      exact Or.inl ⟨same, elected, by simp [State.elect, Function.update_of_ne same]⟩
  have otherRole : ∀ u, u ≠ c → (a.elect c electors).role u = a.role u := by
    intro u differs
    simp only [State.elect, Function.update_of_ne differs]
  have reach : ∀ ack ∈ a.acks, ∀ index ≤ ack.index, index ≤ (a.leaderLog ack.term).length :=
    fun ack member index bound => bound.trans (inv.ackTerm ack member).2.2
  exact
    { inv with
      ballotGrounded := fun ballot member => (inv.ballotGrounded ballot member).mono grows
      campaignLog := by
        intro u t log stands
        obtain ⟨older, grounded⟩ := inv.campaignLog u t log stands
        exact ⟨older, grounded.mono grows⟩
      candidateLog := by
        intro u stands
        by_cases same : u = c
        · subst same
          exact campaign
        · rw [otherRole u same] at stands
          exact inv.candidateLog u stands
      electionWon := by
        intro t winner elected
        rcases elections t winner elected with ⟨-, elected, -⟩ | ⟨rfl, rfl, -⟩
        · obtain ⟨enough, stands, retired, ballots⟩ := inv.electionWon t winner elected
          refine ⟨enough, stands, ?_, ballots⟩
          by_cases same : winner.leader = c
          · rw [same]
            simp [State.elect]
          · rw [otherRole _ same]
            exact retired
        · exact ⟨enough, campaign, fun _ => by simp [State.elect], won⟩
      leaderLogShape := by
        intro t winner elected
        rcases elections t winner elected with ⟨-, elected, log⟩ | ⟨-, rfl, log⟩
        · rw [log]
          exact inv.leaderLogShape t winner elected
        · exact ⟨[], by rw [log, List.append_nil], by simp⟩
      leaderLogEmpty := by
        intro t missing
        have differs : t ≠ a.term c := by
          rintro rfl
          simp [State.elect] at missing
        simp only [State.elect, Function.update_of_ne differs] at missing ⊢
        exact inv.leaderLogEmpty t missing
      leaderLogGrounded := by
        intro t
        by_cases same : t = a.term c
        · subst same
          simp only [State.elect, Function.update_self]
          exact (inv.logGrounded c).mono grows
        · simp only [State.elect, Function.update_of_ne same]
          exact (inv.leaderLogGrounded t).mono grows
      leads := by
        intro u leads
        by_cases same : u = c
        · subst same
          exact ⟨⟨u, electors, a.log u⟩, by simp [State.elect], rfl, by simp [State.elect]⟩
        · rw [otherRole u same] at leads
          obtain ⟨winner, elected, leader, log⟩ := inv.leads u leads
          have elected' := grows.election _ _ elected
          refine ⟨winner, elected', leader, ?_⟩
          rcases elections _ _ elected' with ⟨-, -, kept⟩ | ⟨-, rfl, -⟩
          · exact log.trans kept.symm
          · exact absurd leader.symm same
      logGrounded := fun v => (inv.logGrounded v).mono grows
      ackTerm := by
        intro ack member
        obtain ⟨led, bound, reach⟩ := inv.ackTerm ack member
        exact ⟨grows.electionSome led, bound, reach.trans (grows.leaderLog _).length_le⟩
      ackLog := fun ack member index bound =>
        (inv.ackLog ack member index bound).mono grows (reach ack member index bound) le_rfl
      ackBallot := fun ack member ballot cast voter after index bound =>
        (inv.ackBallot ack member ballot cast voter after index bound).mono grows
          (reach ack member index bound) le_rfl
      ackElection := by
        intro ack member t winner elected elector after
        rcases elections t winner elected with ⟨-, elected, -⟩ | ⟨rfl, rfl, -⟩
        · obtain ⟨ballot, cast, voter, term, candidate, kept⟩ :=
            inv.ackElection ack member t winner elected elector after
          exact ⟨ballot, cast, voter, term, candidate, fun index bound =>
            (kept index bound).mono grows (reach ack member index bound) le_rfl⟩
        · obtain ⟨ballot, cast, voter, term, candidate⟩ := won ack.node elector
          refine ⟨ballot, cast, voter, term, candidate, ?_⟩
          intro index bound
          have kept := inv.ackBallot ack member ballot cast voter (term ▸ after) index bound
          rcases kept with held | ⟨s, winner, afterS, beforeS, electedS, missing⟩
          · left
            rwa [grows.take (reach ack member index bound)]
          · -- The blamed election cannot be the one that is being won.
            have earlier : s ≠ a.term c := by
              rintro rfl
              rw [vacant] at electedS
              cases electedS
            refine Or.inr ⟨s, winner, afterS, by omega, grows.election s winner electedS, ?_⟩
            rwa [grows.take (reach ack member index bound)]
      decision := by
        intro t positive
        obtain ⟨entry, deciders, present, current, enough, acked⟩ := inv.decision t positive
        exact ⟨entry, deciders, grows.getElem present, current, enough, acked⟩ }

end Elections

theorem Inv.propose (inv : Inv termOf quorum a) {c : N} {entry : E} (leads : a.role c = .leader)
    (current : termOf entry = a.term c) : Inv termOf quorum (a.propose c entry) := by
  have grows : Extends a (a.propose c entry) := extends_propose inv leads
  obtain ⟨won, elected, -, log⟩ := inv.leads c leads
  have atLog : (a.propose c entry).leaderLog (a.term c) = a.leaderLog (a.term c) ++ [entry] := by
    simp [State.propose, log]
  have ownLog : (a.propose c entry).log c = a.leaderLog (a.term c) ++ [entry] := by
    simp [State.propose, log]
  have otherLog : ∀ u, u ≠ c → (a.propose c entry).log u = a.log u := by
    intro u differs
    simp only [State.propose, Function.update_of_ne differs]
  have otherLeader : ∀ t, t ≠ a.term c → (a.propose c entry).leaderLog t = a.leaderLog t := by
    intro t differs
    simp only [State.propose, Function.update_of_ne differs]
  have grounded : Grounded termOf (a.propose c entry) (a.leaderLog (a.term c) ++ [entry]) := by
    intro position other present
    rcases Nat.lt_or_ge position (a.leaderLog (a.term c)).length with inside | outside
    · have old : (a.leaderLog (a.term c))[position]? = some other := by
        rwa [List.getElem?_append_left inside] at present
      obtain ⟨led, produced⟩ := (inv.leaderLogGrounded (a.term c)).mono grows position other old
      refine ⟨led, ?_⟩
      rwa [List.take_append_of_le_length inside]
    · have bound := (List.getElem?_eq_some_iff.mp present).1
      simp only [List.length_append, List.length_singleton] at bound
      have last : position = (a.leaderLog (a.term c)).length := by omega
      subst last
      simp only [List.getElem?_concat_length, Option.some.injEq] at present
      subst present
      rw [current, atLog]
      refine ⟨?_, List.take_prefix _ _⟩
      exact Option.isSome_iff_exists.mpr ⟨won, elected⟩
  have reach : ∀ ack ∈ a.acks, ∀ index ≤ ack.index, index ≤ (a.leaderLog ack.term).length :=
    fun ack member index bound => bound.trans (inv.ackTerm ack member).2.2
  have tooOld : ∀ ballot ∈ a.ballots, ballot.voter = c → ¬ a.term c < ballot.term := by
    intro ballot member voter after
    have bound := (inv.ballotTerm ballot member).1
    rw [voter] at bound
    omega
  exact
    { inv with
      ballotGrounded := fun ballot member => (inv.ballotGrounded ballot member).mono grows
      campaignLog := by
        intro u t log stands
        obtain ⟨older, grounded⟩ := inv.campaignLog u t log stands
        exact ⟨older, grounded.mono grows⟩
      candidateLog := by
        intro u stands
        have differs : u ≠ c := by
          rintro rfl
          exact absurd (leads.symm.trans stands) (by simp)
        rw [otherLog u differs]
        exact inv.candidateLog u stands
      leaderLogShape := by
        intro t winner elected
        obtain ⟨own, shape, ownTerm⟩ := inv.leaderLogShape t winner elected
        by_cases same : t = a.term c
        · subst same
          refine ⟨own ++ [entry], by rw [atLog, shape, List.append_assoc], ?_⟩
          intro other member
          rcases List.mem_append.mp member with old | new
          · exact ownTerm other old
          · rw [List.mem_singleton.mp new]
            exact current
        · exact ⟨own, (otherLeader t same).trans shape, ownTerm⟩
      leaderLogEmpty := by
        intro t missing
        have differs : t ≠ a.term c := by
          rintro rfl
          exact absurd (elected.symm.trans missing) (by simp)
        rw [otherLeader t differs]
        exact inv.leaderLogEmpty t missing
      leaderLogGrounded := by
        intro t
        by_cases same : t = a.term c
        · subst same
          rw [atLog]
          exact grounded
        · rw [otherLeader t same]
          exact (inv.leaderLogGrounded t).mono grows
      leads := by
        intro u leadsU
        obtain ⟨winner, electedU, leader, logU⟩ := inv.leads u leadsU
        refine ⟨winner, electedU, leader, ?_⟩
        by_cases same : u = c
        · subst same
          exact ownLog.trans atLog.symm
        · rw [otherLog u same]
          have differs : a.term u ≠ a.term c := by
            intro sameTerm
            rw [sameTerm, elected, Option.some.injEq] at electedU
            obtain ⟨winnerC, electedC, leaderC, -⟩ := inv.leads c leads
            rw [elected, Option.some.injEq] at electedC
            exact same (by rw [← leader, ← electedU, electedC, leaderC])
          exact logU.trans (otherLeader _ differs).symm
      logGrounded := by
        intro u
        by_cases same : u = c
        · subst same
          rw [ownLog]
          exact grounded
        · rw [otherLog u same]
          exact (inv.logGrounded u).mono grows
      logTerm := by
        intro u other member
        by_cases same : u = c
        · subst same
          rw [ownLog] at member
          rcases List.mem_append.mp member with old | new
          · exact inv.leaderLogTerm _ other old
          · rw [List.mem_singleton.mp new]
            exact current.le
        · rw [otherLog u same] at member
          exact inv.logTerm u other member
      ackTerm := by
        rintro ack (rfl | member)
        · refine ⟨Option.isSome_iff_exists.mpr ⟨won, elected⟩, le_rfl, ?_⟩
          rw [atLog, log, List.length_append, List.length_singleton]
        · obtain ⟨led, bound, reach⟩ := inv.ackTerm ack member
          exact ⟨led, bound, reach.trans (grows.leaderLog _).length_le⟩
      ackLog := by
        rintro ack (rfl | member) index bound
        · left
          rw [ownLog, atLog]
          exact List.take_prefix _ _
        · rcases (inv.ackLog ack member index bound).mono grows (reach ack member index bound)
            le_rfl with held | dropped
          · left
            by_cases same : ack.node = c
            · rw [same, ownLog]
              rw [same, log] at held
              exact held.trans (List.prefix_append _ _)
            · rwa [otherLog _ same]
          · exact Or.inr dropped
      ackBallot := by
        rintro ack (rfl | member) ballot cast voter after index bound
        · exact absurd after (tooOld ballot cast voter)
        · exact (inv.ackBallot ack member ballot cast voter after index bound).mono grows
            (reach ack member index bound) le_rfl
      ackElection := by
        rintro ack (rfl | member) t winner electedT elector after
        · obtain ⟨-, -, -, ballots⟩ := inv.electionWon t winner electedT
          obtain ⟨ballot, cast, voter, term, -⟩ := ballots c elector
          exact absurd (term ▸ after) (tooOld ballot cast voter)
        · obtain ⟨ballot, cast, voter, term, candidate, kept⟩ :=
            inv.ackElection ack member t winner electedT elector after
          exact ⟨ballot, cast, voter, term, candidate, fun index bound =>
            (kept index bound).mono grows (reach ack member index bound) le_rfl⟩
      decision := by
        intro t positive
        obtain ⟨decided, deciders, present, currentT, enough, acked⟩ := inv.decision t positive
        refine ⟨decided, deciders, grows.getElem present, currentT, enough, ?_⟩
        intro v member
        obtain ⟨ack, ackMember, rest⟩ := acked v member
        exact ⟨ack, Or.inr ackMember, rest⟩ }

theorem Inv.accept (inv : Inv termOf quorum a) {v : N} {index : ℕ} (follows : a.role v = .follower)
    (led : (a.election (a.term v)).isSome) (bound : index ≤ (a.leaderLog (a.term v)).length) :
    Inv termOf quorum (a.accept v index) := by
  have ownLog : (a.accept v index).log v = a.aligned (a.term v) index (a.log v) := by
    simp [State.accept]
  have otherLog : ∀ u, u ≠ v → (a.accept v index).log u = a.log u := by
    intro u differs
    simp only [State.accept, Function.update_of_ne differs]
  have sameRole : ∀ u, a.role u ≠ .follower → u ≠ v := by
    rintro u active rfl
    exact active follows
  have tooOld : ∀ ballot ∈ a.ballots, ballot.voter = v → ¬ a.term v < ballot.term := by
    intro ballot member voter after
    have bound := (inv.ballotTerm ballot member).1
    rw [voter] at bound
    omega
  exact
    { inv with
      candidateLog := by
        intro u stands
        rw [otherLog u (sameRole u (by rw [show a.role u = .candidate from stands]; simp))]
        exact inv.candidateLog u stands
      leads := by
        intro u leads
        rw [otherLog u (sameRole u (by rw [show a.role u = .leader from leads]; simp))]
        exact inv.leads u leads
      logGrounded := by
        intro u
        by_cases same : u = v
        · subst same
          rw [ownLog]
          rcases aligned_cases (a := a) (a.term u) index (a.log u) with kept | ⟨replaced, -⟩
          · rw [kept]
            exact inv.logGrounded u
          · rw [replaced]
            exact (inv.leaderLogGrounded (a.term u)).initial ( List.take_prefix _ _)
        · rw [otherLog u same]
          exact inv.logGrounded u
      logTerm := by
        intro u entry member
        by_cases same : u = v
        · subst same
          rw [ownLog] at member
          rcases aligned_cases (a := a) (a.term u) index (a.log u) with kept | ⟨replaced, -⟩
          · rw [kept] at member
            exact inv.logTerm u entry member
          · rw [replaced] at member
            exact inv.leaderLogTerm _ entry (List.mem_of_mem_take member)
        · rw [otherLog u same] at member
          exact inv.logTerm u entry member
      ackTerm := by
        rintro ack (rfl | member)
        · exact ⟨led, le_rfl, bound⟩
        · exact inv.ackTerm ack member
      ackLog := by
        rintro ack (rfl | member) part reach
        · left
          rw [ownLog]
          refine List.IsPrefix.trans ?_ (aligned_holds (a := a) (a.term v) index (a.log v))
          exact List.take_isPrefix_take.mpr (Or.inl reach)
        · have kept := inv.ackLog ack member part reach
          by_cases same : ack.node = v
          · rw [same] at kept ⊢
            rw [ownLog]
            have after := (inv.ackTerm ack member).2.1
            rw [same] at after
            exact inv.aligned_kept after led kept
          · rw [otherLog _ same]
            exact kept
      ackBallot := by
        rintro ack (rfl | member) ballot cast voter after part reach
        · exact absurd after (tooOld ballot cast voter)
        · exact inv.ackBallot ack member ballot cast voter after part reach
      ackElection := by
        rintro ack (rfl | member) t winner elected elector after
        · obtain ⟨-, -, -, ballots⟩ := inv.electionWon t winner elected
          obtain ⟨ballot, cast, voter, term, -⟩ := ballots v elector
          exact absurd (term ▸ after) (tooOld ballot cast voter)
        · exact inv.ackElection ack member t winner elected elector after
      decision := by
        intro t positive
        obtain ⟨entry, deciders, present, current, enough, acked⟩ := inv.decision t positive
        refine ⟨entry, deciders, present, current, enough, ?_⟩
        intro u member
        obtain ⟨ack, ackMember, rest⟩ := acked u member
        exact ⟨ack, Or.inr ackMember, rest⟩ }

omit [DecidableEq N] in
theorem Inv.decide (inv : Inv termOf quorum a) {c : N} {index : ℕ} {entry : E}
    {electors : Finset N}
    (present : (a.leaderLog (a.term c))[index - 1]? = some entry)
    (current : termOf entry = a.term c) (enough : quorum electors)
    (acked : ∀ v ∈ electors, ∃ ack ∈ a.acks,
      ack.node = v ∧ ack.term = a.term c ∧ index ≤ ack.index) :
    Inv termOf quorum (a.decide c index) := by
  exact
    { inv with
      decision := by
        intro t positive
        by_cases same : t = a.term c
        · subst same
          simp only [State.decide, Function.update_self] at positive ⊢
          rcases Nat.le_total index (a.decided (a.term c)) with less | more
          · rw [max_eq_left less] at positive ⊢
            exact inv.decision _ positive
          · rw [max_eq_right more]
            exact ⟨entry, electors, present, current, enough, acked⟩
        · simp only [State.decide, Function.update_of_ne same] at positive ⊢
          exact inv.decision t positive }

end GoRaftKV.Library.Consensus
