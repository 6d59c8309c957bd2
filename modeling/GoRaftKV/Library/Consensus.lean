import Mathlib.Data.Finset.Card
import Mathlib.Data.List.Infix
import Mathlib.Logic.Function.Basic

/-! Leader-based replication of one log, over whole logs and unbounded terms. Messages do not
appear: what a message would carry is recorded once and for all in the growing components. -/

namespace GoRaftKV.Library

inductive Role where
  | follower
  | candidate
  | leader
  deriving DecidableEq, Repr

namespace Consensus

/-- A vote, with the voter's log at the moment it was cast. -/
structure Ballot (N E : Type) where
  voter : N
  term : ℕ
  candidate : N
  log : List E

/-- A won election, with the log the leader started from. -/
structure Election (N E : Type) where
  leader : N
  electors : Finset N
  log : List E

structure Ack (N : Type) where
  node : N
  term : ℕ
  index : ℕ

/-- The first four components are the state of each node; the others only grow. -/
structure State (N E : Type) where
  term : N → ℕ
  voted : N → Option N
  role : N → Role
  log : N → List E
  campaign : N → ℕ → Option (List E)
  ballots : Set (Ballot N E)
  election : ℕ → Option (Election N E)
  leaderLog : ℕ → List E
  acks : Set (Ack N)
  decided : ℕ → ℕ

variable {N E : Type}

def State.initial : State N E where
  term := fun _ => 0
  voted := fun _ => none
  role := fun _ => .follower
  log := fun _ => []
  campaign := fun _ _ => none
  ballots := ∅
  election := fun _ => none
  leaderLog := fun _ => []
  acks := ∅
  decided := fun _ => 0

section Logs

variable (termOf : E → ℕ)

def lastTerm (log : List E) : ℕ := (log.getLast?.map termOf).getD 0

/-- The first log is at least as recent as the second. -/
def UpToDate (log other : List E) : Prop :=
  lastTerm termOf other < lastTerm termOf log ∨
    (lastTerm termOf log = lastTerm termOf other ∧ other.length ≤ log.length)

end Logs

namespace State

variable [DecidableEq N] (a : State N E)

open Classical in
/-- `log` brought in line with the first `index` entries of the leader of `term`. -/
noncomputable def aligned (term index : ℕ) (log : List E) : List E :=
  if (a.leaderLog term).take index <+: log then log else (a.leaderLog term).take index

def setRole (v : N) (role : Role) : State N E :=
  { a with role := Function.update a.role v role }

def advance (v : N) (t : ℕ) : State N E :=
  { a with
    term := Function.update a.term v t
    voted := Function.update a.voted v none
    role := Function.update a.role v .follower }

def stand (v : N) (t : ℕ) : State N E :=
  { a with
    term := Function.update a.term v t
    voted := Function.update a.voted v (some v)
    role := Function.update a.role v .candidate
    campaign := Function.update a.campaign v (Function.update (a.campaign v) t (some (a.log v)))
    ballots := insert ⟨v, t, v, a.log v⟩ a.ballots }

def grant (v c : N) : State N E :=
  { a with
    voted := Function.update a.voted v (some c)
    ballots := insert ⟨v, a.term v, c, a.log v⟩ a.ballots }

def elect (c : N) (electors : Finset N) : State N E :=
  { a with
    role := Function.update a.role c .leader
    election := Function.update a.election (a.term c) (some ⟨c, electors, a.log c⟩)
    leaderLog := Function.update a.leaderLog (a.term c) (a.log c) }

def propose (c : N) (entry : E) : State N E :=
  { a with
    log := Function.update a.log c (a.log c ++ [entry])
    leaderLog := Function.update a.leaderLog (a.term c) (a.log c ++ [entry])
    acks := insert ⟨c, a.term c, (a.log c).length + 1⟩ a.acks }

noncomputable def accept (v : N) (index : ℕ) : State N E :=
  { a with
    log := Function.update a.log v (a.aligned (a.term v) index (a.log v))
    acks := insert ⟨v, a.term v, index⟩ a.acks }

def decide (c : N) (index : ℕ) : State N E :=
  { a with decided := Function.update a.decided (a.term c) (max (a.decided (a.term c)) index) }

end State

variable (termOf : E → ℕ) (quorum : Finset N → Prop)

/-- The moves of the protocol. -/
inductive Step [DecidableEq N] (a : State N E) : State N E → Prop
  | follow (v : N) : Step a (a.setRole v .follower)
  | advance (v : N) (t : ℕ) (later : a.term v < t) : Step a (a.advance v t)
  | stand (v : N) (t : ℕ) (later : a.term v < t) : Step a (a.stand v t)
  | grant (v c : N) (log : List E) (undecided : a.voted v = none ∨ a.voted v = some c)
      (standing : a.campaign c (a.term v) = some log) (recent : UpToDate termOf log (a.log v)) :
      Step a (a.grant v c)
  | elect (c : N) (electors : Finset N) (standing : a.role c = .candidate)
      (enough : quorum electors)
      (won : ∀ v ∈ electors, ∃ ballot ∈ a.ballots,
        ballot.voter = v ∧ ballot.term = a.term c ∧ ballot.candidate = c) :
      Step a (a.elect c electors)
  | propose (c : N) (entry : E) (leads : a.role c = .leader) (current : termOf entry = a.term c) :
      Step a (a.propose c entry)
  | accept (v : N) (index : ℕ) (follows : a.role v = .follower)
      (led : (a.election (a.term v)).isSome) (bound : index ≤ (a.leaderLog (a.term v)).length) :
      Step a (a.accept v index)
  | decide (c : N) (index : ℕ) (entry : E) (electors : Finset N) (leads : a.role c = .leader)
      (positive : 0 < index) (present : (a.leaderLog (a.term c))[index - 1]? = some entry)
      (current : termOf entry = a.term c) (enough : quorum electors)
      (acked : ∀ v ∈ electors, ∃ ack ∈ a.acks, ack.node = v ∧ ack.term = a.term c ∧
        index ≤ ack.index) :
      Step a (a.decide c index)

/-- Everything recorded in `a` is still recorded in `b`. -/
structure Extends (a b : State N E) : Prop where
  term : ∀ v, a.term v ≤ b.term v
  campaign : ∀ c t log, a.campaign c t = some log → b.campaign c t = some log
  ballots : a.ballots ⊆ b.ballots
  election : ∀ t won, a.election t = some won → b.election t = some won
  leaderLog : ∀ t, a.leaderLog t <+: b.leaderLog t
  acks : a.acks ⊆ b.acks
  decided : ∀ t, a.decided t ≤ b.decided t

theorem Extends.refl (a : State N E) : Extends a a where
  term := fun _ => le_rfl
  campaign := fun _ _ _ h => h
  ballots := fun _ h => h
  election := fun _ _ h => h
  leaderLog := fun _ => List.prefix_rfl
  acks := fun _ h => h
  decided := fun _ => le_rfl

theorem Extends.trans {a b c : State N E} (first : Extends a b) (second : Extends b c) :
    Extends a c where
  term := fun v => (first.term v).trans (second.term v)
  campaign := fun c t log h => second.campaign c t log (first.campaign c t log h)
  ballots := fun _ h => second.ballots (first.ballots h)
  election := fun t won h => second.election t won (first.election t won h)
  leaderLog := fun t => (first.leaderLog t).trans (second.leaderLog t)
  acks := fun _ h => second.acks (first.acks h)
  decided := fun t => (first.decided t).trans (second.decided t)

/-- Every nonempty initial part of `log` was produced by the leader of its last entry's term. -/
def Grounded (a : State N E) (log : List E) : Prop :=
  ∀ position entry, log[position]? = some entry →
    (a.election (termOf entry)).isSome ∧ log.take (position + 1) <+: a.leaderLog (termOf entry)

/-- A leader after `term`, not later than `bound`, started without the first `index` entries of the
leader of `term`. -/
def Dropped (a : State N E) (term index bound : ℕ) : Prop :=
  ∃ later won, term < later ∧ later ≤ bound ∧ a.election later = some won ∧
    ¬ (a.leaderLog term).take index <+: won.log

/-- `log` still holds those entries, unless some later leader is to blame. -/
def Kept (a : State N E) (term index : ℕ) (log : List E) (bound : ℕ) : Prop :=
  (a.leaderLog term).take index <+: log ∨ Dropped a term index bound

/-- The facts that hold in every reachable state. -/
structure Inv (a : State N E) : Prop where
  ballotTerm : ∀ ballot ∈ a.ballots, ballot.term ≤ a.term ballot.voter ∧
    (ballot.term = a.term ballot.voter → a.voted ballot.voter = some ballot.candidate)
  ballotUnique : ∀ first ∈ a.ballots, ∀ second ∈ a.ballots, first.voter = second.voter →
    first.term = second.term → first.candidate = second.candidate
  ballotCampaign : ∀ ballot ∈ a.ballots, ∃ log,
    a.campaign ballot.candidate ballot.term = some log ∧ UpToDate termOf log ballot.log
  ballotGrounded : ∀ ballot ∈ a.ballots, Grounded termOf a ballot.log
  campaignTerm : ∀ c t log, a.campaign c t = some log → 0 < t ∧ t ≤ a.term c
  campaignLog : ∀ c t log, a.campaign c t = some log →
    (∀ entry ∈ log, termOf entry < t) ∧ Grounded termOf a log
  candidateLog : ∀ c, a.role c = .candidate → a.campaign c (a.term c) = some (a.log c)
  electionWon : ∀ t won, a.election t = some won → quorum won.electors ∧
    a.campaign won.leader t = some won.log ∧
    (t = a.term won.leader → a.role won.leader ≠ .candidate) ∧
    ∀ v ∈ won.electors, ∃ ballot ∈ a.ballots,
      ballot.voter = v ∧ ballot.term = t ∧ ballot.candidate = won.leader
  leaderLogShape : ∀ t won, a.election t = some won →
    ∃ own, a.leaderLog t = won.log ++ own ∧ ∀ entry ∈ own, termOf entry = t
  leaderLogEmpty : ∀ t, a.election t = none → a.leaderLog t = []
  leaderLogGrounded : ∀ t, Grounded termOf a (a.leaderLog t)
  leads : ∀ c, a.role c = .leader → ∃ won, a.election (a.term c) = some won ∧
    won.leader = c ∧ a.log c = a.leaderLog (a.term c)
  logGrounded : ∀ v, Grounded termOf a (a.log v)
  logTerm : ∀ v, ∀ entry ∈ a.log v, termOf entry ≤ a.term v
  ackTerm : ∀ ack ∈ a.acks, (a.election ack.term).isSome ∧ ack.term ≤ a.term ack.node ∧
    ack.index ≤ (a.leaderLog ack.term).length
  ackLog : ∀ ack ∈ a.acks, ∀ index ≤ ack.index,
    Kept a ack.term index (a.log ack.node) (a.term ack.node)
  ackBallot : ∀ ack ∈ a.acks, ∀ ballot ∈ a.ballots, ballot.voter = ack.node →
    ack.term < ballot.term → ∀ index ≤ ack.index, Kept a ack.term index ballot.log ballot.term
  ackElection : ∀ ack ∈ a.acks, ∀ t won, a.election t = some won → ack.node ∈ won.electors →
    ack.term < t → ∃ ballot ∈ a.ballots, ballot.voter = ack.node ∧ ballot.term = t ∧
      ballot.candidate = won.leader ∧
      ∀ index ≤ ack.index, Kept a ack.term index ballot.log (t - 1)
  decision : ∀ t, 0 < a.decided t → ∃ entry electors,
    (a.leaderLog t)[a.decided t - 1]? = some entry ∧ termOf entry = t ∧ quorum electors ∧
    ∀ v ∈ electors, ∃ ack ∈ a.acks, ack.node = v ∧ ack.term = t ∧ a.decided t ≤ ack.index

/-- `log` is an initial part of what a leader of term at most `bound` has decided. -/
def Chosen (a : State N E) (bound : ℕ) (log : List E) : Prop :=
  log = [] ∨ ∃ t ≤ bound, log <+: (a.leaderLog t).take (a.decided t)

end Consensus

end GoRaftKV.Library
