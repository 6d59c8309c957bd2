import GoRaftKV.Library.ConsensusSteps
import Mathlib.Logic.Relation

/-! The protocol seen from one node: what its moves leave alone, and what it may conclude about the
chosen log. -/

namespace GoRaftKV.Library.Consensus

variable {N E : Type} {termOf : E → ℕ} {quorum : Finset N → Prop} {a b c : State N E} {v : N}

section Chosen

theorem Chosen.initial {bound : ℕ} {log part : List E} (chosen : Chosen a bound log)
    (initial : part <+: log) :
    Chosen a bound part := by
  rcases chosen with rfl | ⟨t, before, decided⟩
  · exact Or.inl (List.prefix_nil.mp initial)
  · exact Or.inr ⟨t, before, initial.trans decided⟩

variable (meet : ∀ first second, quorum first → quorum second → ∃ v, v ∈ first ∧ v ∈ second)

include meet in
theorem Inv.chosenShorter (inv : Inv termOf quorum a) {first second : List E} {bound limit : ℕ}
    (left : Chosen a bound first) (right : Chosen a limit second)
    (shorter : first.length ≤ second.length) :
    first <+: second := by
  rcases inv.chosenLinear meet left right with inside | outside
  · exact inside
  · exact (outside.eq_of_length_le shorter) ▸ List.prefix_rfl

include meet in
theorem Inv.chosenSame (inv : Inv termOf quorum a) {first second : List E} {bound limit : ℕ}
    (left : Chosen a bound first) (right : Chosen a limit second)
    (length : first.length = second.length) :
    first = second :=
  (inv.chosenShorter meet left right length.le).eq_of_length length

include meet in
theorem Inv.chosenUpper (inv : Inv termOf quorum a) {I : Type} [DecidableEq I] (family : Finset I)
    {logs : I → List E} (chosen : ∀ i ∈ family, ∃ bound, Chosen a bound (logs i)) :
    ∃ log, (log = [] ∨ ∃ i ∈ family, log = logs i) ∧ ∀ i ∈ family, logs i <+: log := by
  induction family using Finset.induction_on with
  | empty => exact ⟨[], Or.inl rfl, fun i member => absurd member (Finset.notMem_empty i)⟩
  | insert j rest _ ih =>
      rcases ih fun i member => chosen i (Finset.mem_insert_of_mem member) with
        ⟨log, source, inside⟩
      have decided : ∃ bound, Chosen a bound log := by
        rcases source with rfl | ⟨i, member, rfl⟩
        · exact ⟨0, Or.inl rfl⟩
        · exact chosen i (Finset.mem_insert_of_mem member)
      rcases decided with ⟨bound, decided⟩
      rcases chosen j (Finset.mem_insert_self j rest) with ⟨limit, more⟩
      rcases inv.chosenLinear meet more decided with shorter | longer
      · refine ⟨log, source.imp_right fun ⟨i, member, same⟩ =>
          ⟨i, Finset.mem_insert_of_mem member, same⟩, ?_⟩
        intro i member
        rcases Finset.mem_insert.mp member with rfl | old
        · exact shorter
        · exact inside i old
      · refine ⟨logs j, Or.inr ⟨j, Finset.mem_insert_self j rest, rfl⟩, fun i member => ?_⟩
        rcases Finset.mem_insert.mp member with rfl | old
        · exact List.prefix_rfl
        · exact (inside i old).trans longer

include meet in
theorem Inv.chosenWithin (inv : Inv termOf quorum a) {voters : Finset N} {term bound : ℕ}
    {log : List E} (enough : quorum voters) (behind : ∀ v ∈ voters, a.term v ≤ term)
    (chosen : Chosen a bound log) :
    Chosen a term log := by
  rcases chosen with rfl | ⟨t, -, initial⟩
  · exact Or.inl rfl
  rcases Nat.eq_zero_or_pos (a.decided t) with zero | positive
  · rw [zero, List.take_zero] at initial
    exact Or.inl (List.prefix_nil.mp initial)
  obtain ⟨won, elected⟩ := Option.isSome_iff_exists.mp (inv.electedOfDecided positive)
  obtain ⟨electors, -, -, votes⟩ := inv.electionWon t won elected
  obtain ⟨v, counted, elector⟩ := meet _ _ enough electors
  obtain ⟨ballot, cast, rfl, current, -⟩ := votes v elector
  have before : t ≤ term := by
    calc
      t = ballot.term := current.symm
      _ ≤ a.term ballot.voter := (inv.ballotTerm ballot cast).1
      _ ≤ term := behind _ counted
  exact Or.inr ⟨t, before, initial⟩

include meet in
theorem Inv.chosenLength (inv : Inv termOf quorum a) {term : ℕ} {won : Election N E} {log : List E}
    (elected : a.election term = some won) (chosen : Chosen a term log) :
    log.length ≤ max (a.decided term) won.log.length := by
  -- What is chosen by `term`, its leader has decided itself or started from.
  rcases chosen with rfl | ⟨t, bound, initial⟩
  · exact Nat.zero_le _
  rcases bound.eq_or_lt with rfl | earlier
  · calc
      log.length ≤ ((a.leaderLog t).take (a.decided t)).length := initial.length_le
      _ ≤ a.decided t := List.length_take_le _ _
      _ ≤ max (a.decided t) won.log.length := le_max_left _ _
  · calc
      log.length ≤ won.log.length :=
        (initial.trans (inv.leaderCompleteness meet elected earlier)).length_le
      _ ≤ max (a.decided term) won.log.length := le_max_right _ _

include meet in
theorem Inv.chosenHeld (inv : Inv termOf quorum a) {log : List E} {bound : ℕ}
    (chosen : Chosen a bound log) (nonempty : log ≠ []) :
    ∃ voters, quorum voters ∧ ∀ v ∈ voters, log <+: a.log v := by
  rcases chosen with empty | ⟨t, -, initial⟩
  · exact absurd empty nonempty
  have positive : 0 < a.decided t := by
    rcases Nat.eq_zero_or_pos (a.decided t) with zero | positive
    · rw [zero, List.take_zero] at initial
      exact absurd (List.prefix_nil.mp initial) nonempty
    · exact positive
  obtain ⟨entry, voters, -, -, enough, acked⟩ := inv.decision t positive
  refine ⟨voters, enough, fun v counted => initial.trans ?_⟩
  obtain ⟨ack, member, rfl, rfl, reach⟩ := acked v counted
  rcases inv.ackLog ack member _ reach with held | ⟨later, won, after, -, elected, dropped⟩
  · exact held
  · exact absurd (inv.leaderCompleteness meet elected after) dropped

theorem Inv.acknowledged (inv : Inv termOf quorum a) {ack : Ack N} (member : ack ∈ a.acks)
    (current : a.term ack.node = ack.term) {index : ℕ} (reach : index ≤ ack.index) :
    (a.leaderLog ack.term).take index <+: a.log ack.node := by
  rcases inv.ackLog ack member index reach with held | ⟨later, won, after, before, -⟩
  · exact held
  · omega

end Chosen

theorem Inv.undecided (inv : Inv termOf quorum a) {t : ℕ} (vacant : a.election t = none) :
    a.decided t = 0 := by
  -- Nothing is decided in a term that nobody has won.
  by_contra some
  rcases inv.decision t (Nat.pos_of_ne_zero some) with ⟨entry, electors, present, -⟩
  rw [inv.leaderLogEmpty t vacant] at present
  cases present

section Aligned

theorem aligned_of_held {t index : ℕ} {log : List E} (held : (a.leaderLog t).take index <+: log) :
    a.aligned t index log = log := if_pos held

theorem aligned_of_missing {t index : ℕ} {log : List E}
    (missing : ¬ (a.leaderLog t).take index <+: log) :
    a.aligned t index log = (a.leaderLog t).take index := if_neg missing

end Aligned

theorem State.decide_zero [DecidableEq N] (c : N) : b.decide c 0 = b := by
  unfold State.decide
  rw [Nat.max_eq_left (Nat.zero_le _), Function.update_eq_self]

/-- `v` has acted: nothing recorded is lost, and the other nodes are as they were. A term that
another node has won is that node's to decide in. -/
structure Acts (v : N) (a b : State N E) : Prop where
  grows : Extends a b
  term : ∀ u, u ≠ v → b.term u = a.term u
  voted : ∀ u, u ≠ v → b.voted u = a.voted u
  role : ∀ u, u ≠ v → b.role u = a.role u
  log : ∀ u, u ≠ v → b.log u = a.log u
  decided : ∀ t won, a.election t = some won → won.leader ≠ v → b.decided t = a.decided t

theorem Acts.refl (v : N) (a : State N E) : Acts v a a where
  grows := .refl a
  term := fun _ _ => rfl
  voted := fun _ _ => rfl
  role := fun _ _ => rfl
  log := fun _ _ => rfl
  decided := fun _ _ _ _ => rfl

theorem Acts.trans (first : Acts v a b) (second : Acts v b c) : Acts v a c where
  grows := first.grows.trans second.grows
  term := fun u other => (second.term u other).trans (first.term u other)
  voted := fun u other => (second.voted u other).trans (first.voted u other)
  role := fun u other => (second.role u other).trans (first.role u other)
  log := fun u other => (second.log u other).trans (first.log u other)
  decided := by
    intro t won elected other
    rw [second.decided t won (first.grows.election t won elected) other,
      first.decided t won elected other]

variable [DecidableEq N]

/-- Moves of the protocol lead from `a` to `b`, in which `v` alone has acted, and `b` satisfies the
invariant. -/
structure Reach (termOf : E → ℕ) (quorum : Finset N → Prop) (v : N) (a b : State N E) : Prop where
  acts : Acts v a b
  inv : Inv termOf quorum b
  path : Relation.ReflTransGen (Step termOf quorum) a b

theorem Reach.refl (inv : Inv termOf quorum a) : Reach termOf quorum v a a :=
  ⟨.refl v a, inv, .refl⟩

theorem Reach.trans (first : Reach termOf quorum v a b) (second : Reach termOf quorum v b c) :
    Reach termOf quorum v a c :=
  ⟨first.acts.trans second.acts, second.inv, first.path.trans second.path⟩

section Moves

variable (reach : Reach termOf quorum v a b)

include reach

theorem Reach.follow : Reach termOf quorum v a (b.setRole v .follower) where
  acts := reach.acts.trans
    { grows := extends_setRole v .follower
      term := fun _ _ => rfl
      voted := fun _ _ => rfl
      role := fun _ other => Function.update_of_ne other _ _
      log := fun _ _ => rfl
      decided := fun _ _ _ _ => rfl }
  inv := reach.inv.follow v
  path := reach.path.tail (.follow v)

theorem Reach.advance {t : ℕ} (later : b.term v < t) : Reach termOf quorum v a (b.advance v t) where
  acts := reach.acts.trans
    { grows := extends_advance later
      term := fun _ other => Function.update_of_ne other _ _
      voted := fun _ other => Function.update_of_ne other _ _
      role := fun _ other => Function.update_of_ne other _ _
      log := fun _ _ => rfl
      decided := fun _ _ _ _ => rfl }
  inv := reach.inv.advance later
  path := reach.path.tail (.advance v t later)

theorem Reach.stand {t : ℕ} (later : b.term v < t) : Reach termOf quorum v a (b.stand v t) where
  acts := reach.acts.trans
    { grows := extends_stand reach.inv later
      term := fun _ other => Function.update_of_ne other _ _
      voted := fun _ other => Function.update_of_ne other _ _
      role := fun _ other => Function.update_of_ne other _ _
      log := fun _ _ => rfl
      decided := fun _ _ _ _ => rfl }
  inv := reach.inv.stand later
  path := reach.path.tail (.stand v t later)

theorem Reach.grant {candidate : N} {log : List E}
    (undecided : b.voted v = none ∨ b.voted v = some candidate)
    (standing : b.campaign candidate (b.term v) = some log)
    (recent : UpToDate termOf log (b.log v)) :
    Reach termOf quorum v a (b.grant v candidate) where
  acts := reach.acts.trans
    { grows := extends_grant v candidate
      term := fun _ _ => rfl
      voted := fun _ other => Function.update_of_ne other _ _
      role := fun _ _ => rfl
      log := fun _ _ => rfl
      decided := fun _ _ _ _ => rfl }
  inv := reach.inv.grant undecided standing recent
  path := reach.path.tail (.grant v candidate log undecided standing recent)

theorem Reach.elect (meet : ∀ first second, quorum first → quorum second → ∃ v, v ∈ first ∧
    v ∈ second) {electors : Finset N} (standing : b.role v = .candidate) (enough : quorum electors)
    (won : ∀ u ∈ electors, ∃ ballot ∈ b.ballots,
      ballot.voter = u ∧ ballot.term = b.term v ∧ ballot.candidate = v) :
    Reach termOf quorum v a (b.elect v electors) where
  acts := reach.acts.trans
    { grows := extends_elect reach.inv (reach.inv.vacant meet standing enough won)
      term := fun _ _ => rfl
      voted := fun _ _ => rfl
      role := fun _ other => Function.update_of_ne other _ _
      log := fun _ _ => rfl
      decided := fun _ _ _ _ => rfl }
  inv := reach.inv.elect meet standing enough won
  path := reach.path.tail (.elect v electors standing enough won)

theorem Reach.propose {entry : E} (leads : b.role v = .leader) (current : termOf entry = b.term v) :
    Reach termOf quorum v a (b.propose v entry) where
  acts := reach.acts.trans
    { grows := extends_propose reach.inv leads
      term := fun _ _ => rfl
      voted := fun _ _ => rfl
      role := fun _ _ => rfl
      log := fun _ other => Function.update_of_ne other _ _
      decided := fun _ _ _ _ => rfl }
  inv := reach.inv.propose leads current
  path := reach.path.tail (.propose v entry leads current)

theorem Reach.accept {index : ℕ} (follows : b.role v = .follower)
    (led : (b.election (b.term v)).isSome) (bound : index ≤ (b.leaderLog (b.term v)).length) :
    Reach termOf quorum v a (b.accept v index) where
  acts := reach.acts.trans
    { grows := extends_accept v index
      term := fun _ _ => rfl
      voted := fun _ _ => rfl
      role := fun _ _ => rfl
      log := fun _ other => Function.update_of_ne other _ _
      decided := fun _ _ _ _ => rfl }
  inv := reach.inv.accept follows led bound
  path := reach.path.tail (.accept v index follows led bound)

theorem Reach.decide {index : ℕ} {entry : E} {electors : Finset N} (leads : b.role v = .leader)
    (present : (b.leaderLog (b.term v))[index - 1]? = some entry)
    (current : termOf entry = b.term v) (enough : quorum electors)
    (acked : ∀ u ∈ electors, ∃ ack ∈ b.acks, ack.node = u ∧ ack.term = b.term v ∧
      index ≤ ack.index) :
    Reach termOf quorum v a (b.decide v index) where
  acts := reach.acts.trans
    { grows := extends_decide v index
      term := fun _ _ => rfl
      voted := fun _ _ => rfl
      role := fun _ _ => rfl
      log := fun _ _ => rfl
      decided := by
        intro t won elected other
        rcases reach.inv.leads v leads with ⟨own, reigns, rfl, -⟩
        refine Function.update_of_ne ?_ _ _
        rintro rfl
        cases elected.symm.trans reigns
        exact other rfl }
  inv := reach.inv.decide present current enough acked
  path := by
    rcases Nat.eq_zero_or_pos index with rfl | positive
    · rw [State.decide_zero]
      exact reach.path
    · exact reach.path.tail (.decide v index entry electors leads positive present current enough
        acked)

end Moves

end GoRaftKV.Library.Consensus
