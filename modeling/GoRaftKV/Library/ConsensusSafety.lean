import GoRaftKV.Library.Consensus

namespace GoRaftKV.Library.Consensus

variable {N E : Type} {termOf : E → ℕ} {quorum : Finset N → Prop} {a b : State N E}

section Grounded

theorem Grounded.initial {log part : List E} (grounded : Grounded termOf a log)
    (initial : part <+: log) : Grounded termOf a part := by
  intro position entry present
  have inLog : log[position]? = some entry := by
    obtain ⟨rest, rfl⟩ := initial
    rw [List.getElem?_append_left (List.getElem?_eq_some_iff.mp present).1]
    exact present
  obtain ⟨led, produced⟩ := grounded position entry inLog
  refine ⟨led, ?_⟩
  have shorter : part.take (position + 1) <+: log.take (position + 1) := by
    obtain ⟨rest, rfl⟩ := initial
    rw [List.take_append]
    exact List.prefix_append _ _
  exact shorter.trans produced

/-- Log matching: the same term at one position means the same entries up to it. -/
theorem Grounded.agree {first second : List E} (left : Grounded termOf a first)
    (right : Grounded termOf a second) {position : ℕ} {entry other : E}
    (atFirst : first[position]? = some entry) (atSecond : second[position]? = some other)
    (same : termOf entry = termOf other) :
    first.take (position + 1) = second.take (position + 1) := by
  have fromFirst := (left position entry atFirst).2
  have fromSecond := (right position other atSecond).2
  rw [same] at fromFirst
  have lengths : (first.take (position + 1)).length = (second.take (position + 1)).length := by
    have boundFirst := (List.getElem?_eq_some_iff.mp atFirst).1
    have boundSecond := (List.getElem?_eq_some_iff.mp atSecond).1
    simp only [List.length_take]
    omega
  have contained := List.prefix_of_prefix_length_le fromFirst fromSecond lengths.le
  exact contained.eq_of_length lengths

theorem Grounded.produced {log : List E} (grounded : Grounded termOf a log) (nonempty : log ≠ []) :
    (a.election (lastTerm termOf log)).isSome ∧ log <+: a.leaderLog (lastTerm termOf log) := by
  have positive : 0 < log.length := List.length_pos_iff.mpr nonempty
  have present : log[log.length - 1]? = some (log.getLast nonempty) := by
    rw [List.getLast_eq_getElem, List.getElem?_eq_getElem (by omega)]
  have last : lastTerm termOf log = termOf (log.getLast nonempty) := by
    simp [lastTerm, List.getLast?_eq_getLast_of_ne_nil nonempty]
  have whole : log.take (log.length - 1 + 1) = log := by
    rw [Nat.sub_add_cancel positive, List.take_length]
  have facts := grounded _ _ present
  rw [whole] at facts
  rw [last]
  exact facts

theorem Inv.leaderLogTerm (inv : Inv termOf quorum a) (t : ℕ) :
    ∀ entry ∈ a.leaderLog t, termOf entry ≤ t := by
  intro entry member
  cases elected : a.election t with
  | none =>
      rw [inv.leaderLogEmpty t elected] at member
      cases member
  | some won =>
      obtain ⟨own, shape, current⟩ := inv.leaderLogShape t won elected
      rw [shape] at member
      rcases List.mem_append.mp member with old | new
      · exact ((inv.campaignLog _ _ _ (inv.electionWon t won elected).2.1).1 entry old).le
      · exact (current entry new).le

theorem Inv.termLeLast (inv : Inv termOf quorum a) {log : List E}
    (grounded : Grounded termOf a log) : ∀ entry ∈ log, termOf entry ≤ lastTerm termOf log := by
  intro entry member
  have nonempty : log ≠ [] := List.ne_nil_of_mem member
  exact inv.leaderLogTerm _ entry ((grounded.produced nonempty).2.subset member)

end Grounded

section Completeness

variable (meet : ∀ first second, quorum first → quorum second → ∃ v, v ∈ first ∧ v ∈ second)

theorem Inv.carries (inv : Inv termOf quorum a) {t later index : ℕ} {decidedEntry : E}
    {log other : List E} (positive : 0 < index)
    (decided : (a.leaderLog t)[index - 1]? = some decidedEntry) (current : termOf decidedEntry = t)
    (held : (a.leaderLog t).take index <+: other) (groundedOther : Grounded termOf a other)
    (grounded : Grounded termOf a log) (older : ∀ entry ∈ log, termOf entry < later)
    (recent : UpToDate termOf log other)
    (between : ∀ s won, t < s → s < later → a.election s = some won →
      (a.leaderLog t).take index <+: won.log) :
    (a.leaderLog t).take index <+: log := by
  have inTake : ((a.leaderLog t).take index)[index - 1]? = some decidedEntry := by
    rw [List.getElem?_take_of_lt (by omega)]
    exact decided
  have inOther : decidedEntry ∈ other := held.subset (List.mem_of_getElem? inTake)
  have lastOther : t ≤ lastTerm termOf other := current ▸ inv.termLeLast groundedOther _ inOther
  have otherNonempty : other ≠ [] := List.ne_nil_of_mem inOther
  have elected : (a.election t).isSome := by
    cases missing : a.election t with
    | none =>
        rw [inv.leaderLogEmpty t missing] at decided
        cases decided
    | some won => rfl
  obtain ⟨wonT, electedT⟩ := Option.isSome_iff_exists.mp elected
  have termPositive : 0 < t := (inv.campaignTerm _ _ _ (inv.electionWon t wonT electedT).2.1).1
  have nonempty : log ≠ [] := by
    rintro rfl
    have zero : lastTerm termOf ([] : List E) = 0 := rfl
    rcases recent with less | ⟨equal, -⟩ <;> omega
  obtain ⟨ledLog, producedLog⟩ := grounded.produced nonempty
  have lastOlder : lastTerm termOf log < later := by
    have member := List.getLast_mem nonempty
    simpa [lastTerm, List.getLast?_eq_getLast_of_ne_nil nonempty] using older _ member
  rcases recent with less | ⟨equal, length⟩
  · -- The log ends in a later term, whose leader started with the decided prefix.
    obtain ⟨won, electedLog⟩ := Option.isSome_iff_exists.mp ledLog
    have started := between _ won (by omega) lastOlder electedLog
    obtain ⟨own, shape, -⟩ := inv.leaderLogShape _ won electedLog
    have startedLog : won.log <+: a.leaderLog (lastTerm termOf log) := ⟨own, shape.symm⟩
    rcases List.prefix_or_prefix_of_prefix startedLog producedLog with whole | short
    · exact started.trans whole
    · -- Its last entry is of that very term, so it reaches beyond the starting log.
      have member := short.subset (List.getLast_mem nonempty)
      have small := (inv.campaignLog _ _ _ (inv.electionWon _ won electedLog).2.1).1 _ member
      simp [lastTerm, List.getLast?_eq_getLast_of_ne_nil nonempty] at small
  · have producedOther := (groundedOther.produced otherNonempty).2
    rw [← equal] at producedOther
    exact held.trans (List.prefix_of_prefix_length_le producedOther producedLog length)

include meet in
/-- Leader completeness: what the leader of `t` has decided, every later leader starts with. -/
theorem Inv.leaderCompleteness (inv : Inv termOf quorum a) {t later : ℕ} {won : Election N E}
    (elected : a.election later = some won) (after : t < later) :
    (a.leaderLog t).take (a.decided t) <+: won.log := by
  rcases Nat.eq_zero_or_pos (a.decided t) with zero | positive
  · rw [zero, List.take_zero]
    exact List.nil_prefix
  obtain ⟨entry, electors, present, current, enough, acked⟩ := inv.decision t positive
  induction later using Nat.strong_induction_on generalizing won with
  | _ later ih =>
      obtain ⟨enoughWon, standing, -, -⟩ := inv.electionWon later won elected
      obtain ⟨v, inElectors, inWon⟩ := meet _ _ enough enoughWon
      obtain ⟨ack, ackMember, rfl, rfl, reaches⟩ := acked v inElectors
      obtain ⟨ballot, ballotMember, -, ballotTerm, ballotCandidate, kept⟩ :=
        inv.ackElection ack ackMember later won elected inWon after
      obtain ⟨log, campaignLog, recent⟩ := inv.ballotCampaign ballot ballotMember
      rw [ballotCandidate, ballotTerm, standing] at campaignLog
      cases campaignLog
      have held : (a.leaderLog ack.term).take (a.decided ack.term) <+: ballot.log := by
        rcases kept _ reaches with held | ⟨s, wonS, afterS, boundS, electedS, missing⟩
        · exact held
        · exact absurd (ih s (by omega) electedS afterS) missing
      obtain ⟨older, grounded⟩ := inv.campaignLog _ _ _ standing
      exact inv.carries positive present current held (inv.ballotGrounded ballot ballotMember)
        grounded older recent fun s wonS afterS beforeS electedS => ih s beforeS electedS afterS

include meet in
theorem Inv.decidedPrefix (inv : Inv termOf quorum a) {t later : ℕ}
    (elected : (a.election later).isSome) (after : t ≤ later) :
    (a.leaderLog t).take (a.decided t) <+: a.leaderLog later := by
  rcases after.eq_or_lt with rfl | after
  · exact List.take_prefix _ _
  · obtain ⟨won, elected⟩ := Option.isSome_iff_exists.mp elected
    obtain ⟨own, shape, -⟩ := inv.leaderLogShape later won elected
    exact (inv.leaderCompleteness meet elected after).trans ⟨own, shape.symm⟩

include meet in
/-- Everything chosen by term `later` is in the log of the leader of `later`. -/
theorem Inv.chosenPrefix (inv : Inv termOf quorum a) {log : List E} {later : ℕ}
    (chosen : Chosen a later log) (elected : (a.election later).isSome) :
    log <+: a.leaderLog later := by
  rcases chosen with rfl | ⟨t, bound, initial⟩
  · exact List.nil_prefix
  · exact initial.trans (inv.decidedPrefix meet elected bound)

theorem Inv.electedOfDecided (inv : Inv termOf quorum a) {t : ℕ} (positive : 0 < a.decided t) :
    (a.election t).isSome := by
  obtain ⟨entry, electors, present, -⟩ := inv.decision t positive
  cases elected : a.election t with
  | none =>
      rw [inv.leaderLogEmpty t elected] at present
      cases present
  | some won => rfl

include meet in
/-- There is one chosen log: any two chosen logs are initial parts of one another. -/
theorem Inv.chosenLinear (inv : Inv termOf quorum a) {first second : List E} {bound limit : ℕ}
    (left : Chosen a bound first) (right : Chosen a limit second) :
    first <+: second ∨ second <+: first := by
  rcases left with rfl | ⟨t, -, initial⟩
  · exact Or.inl List.nil_prefix
  rcases right with rfl | ⟨s, -, other⟩
  · exact Or.inr List.nil_prefix
  rcases Nat.eq_zero_or_pos (a.decided t) with zero | positiveT
  · simp only [zero, List.take_zero, List.prefix_nil] at initial
    exact Or.inl (initial ▸ List.nil_prefix)
  rcases Nat.eq_zero_or_pos (a.decided s) with zero | positiveS
  · simp only [zero, List.take_zero, List.prefix_nil] at other
    exact Or.inr (other ▸ List.nil_prefix)
  rcases Nat.le_total t s with le | le
  · exact List.prefix_or_prefix_of_prefix
      (initial.trans (inv.decidedPrefix meet (inv.electedOfDecided positiveS) le))
      (other.trans ( List.take_prefix _ _))
  · exact List.prefix_or_prefix_of_prefix (initial.trans ( List.take_prefix _ _))
      (other.trans (inv.decidedPrefix meet (inv.electedOfDecided positiveT) le))

end Completeness

end GoRaftKV.Library.Consensus
