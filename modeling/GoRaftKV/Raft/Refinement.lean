import GoRaftKV.Library.ConsensusLocal
import GoRaftKV.Raft.Elections
import GoRaftKV.Raft.Tracking

/-! A node as a participant of the abstract protocol: its whole log, compacted entries included, is
the protocol's log, and its snapshot is the fold of the chosen entries it stands for. -/

namespace GoRaftKV.Raft

open Storage Library Program

/-- The protocol over this cluster's nodes and entries. -/
abbrev Ideal := Consensus.State NodeId LogEntry

/-- The term of the last entry. -/
abbrev endTerm (log : List LogEntry) : Nat := Consensus.lastTerm LogEntry.term log

def foldOf (history : List LogEntry) : Snapshot where
  lastIncludedIndex := history.length
  lastIncludedTerm := endTerm history
  data := if history = [] then none else some (KVStateMachine.replay ∅ history)
  history := history

theorem restore_foldOf (history : List LogEntry) :
    KVStateMachine.restore (foldOf history).data = KVStateMachine.replay ∅ history := by
  unfold foldOf KVStateMachine.restore
  split
  · rename_i empty
    rw [empty]
    rfl
  · rfl

def termOfIndex (log : List LogEntry) (index : Nat) : Option Nat :=
  (log[index - 1]?).map LogEntry.term

theorem endTerm_take {log : List LogEntry} {index : Nat} (positive : 0 < index)
    (bound : index ≤ log.length) :
    termOfIndex log index = some (endTerm (log.take index)) := by
  have inside : index - 1 < log.length := by omega
  have last : (log.take index).getLast? = some (log.get ⟨index - 1, inside⟩) := by
    rw [List.getLast?_take, if_neg (by omega)]
    simp [List.getElem?_eq_getElem inside]
  unfold termOfIndex endTerm Consensus.lastTerm
  rw [last, List.getElem?_eq_getElem inside]
  rfl

/-- The snapshot is the fold of its history, and the log continues it. -/
structure Node.Whole (n : Node) : Prop where
  folded : n.snapshot = foldOf n.snapshot.history
  ordered : Contiguous 0 n.snapshot.history
  contiguous : Contiguous n.snapshot.lastIncludedIndex n.log

namespace Node.Whole

variable {n : Node} (whole : n.Whole)

include whole

theorem length : n.snapshot.history.length = n.snapshot.lastIncludedIndex := by
  rw [whole.folded]
  rfl

theorem numbered : Contiguous 0 n.fullLog := by
  unfold Node.fullLog
  rw [contiguous_append, whole.length, Nat.zero_add]
  exact ⟨whole.ordered, whole.contiguous⟩

theorem lastIndex : n.lastIndexLocked = n.fullLog.length := by
  rw [Node.lastIndexLocked_eq whole.contiguous, Node.fullLog, List.length_append, whole.length]

theorem take_compacted : n.fullLog.take n.snapshot.lastIncludedIndex = n.snapshot.history := by
  rw [Node.fullLog, ← whole.length, List.take_left]

theorem drop_compacted : n.fullLog.drop n.snapshot.lastIncludedIndex = n.log := by
  rw [Node.fullLog, ← whole.length, List.drop_left]

theorem entryAt {index : Nat} (after : n.snapshot.lastIncludedIndex < index) :
    n.entryAtLocked index = n.fullLog[index - 1]? := by
  have place : index - 1 - n.snapshot.history.length =
      index - n.snapshot.lastIncludedIndex - 1 := by
    rw [whole.length]
    omega
  rw [Node.entryAtLocked_of_gt whole.contiguous after, Node.fullLog,
    List.getElem?_append_right (by rw [whole.length]; omega), place]

theorem termAt {index : Nat} (positive : 0 < index) (after : n.snapshot.lastIncludedIndex ≤ index) :
    n.termAtLocked index = termOfIndex n.fullLog index := by
  rcases after.eq_or_lt with same | later
  · have nonempty : index ≤ n.fullLog.length := by
      rw [← whole.lastIndex, Node.lastIndexLocked_eq whole.contiguous]
      omega
    have term : n.snapshot.lastIncludedTerm = endTerm n.snapshot.history := by
      rw [whole.folded]
      rfl
    have own : n.termAtLocked index = some n.snapshot.lastIncludedTerm := by
      rw [Node.termAtLocked, if_neg (by omega), if_pos same.symm]
    rw [own, endTerm_take positive nonempty, ← same, whole.take_compacted, term]
  · rw [Node.termAtLocked_of_gt later, whole.entryAt later]
    rfl

theorem lastTerm : n.lastTermLocked = endTerm n.fullLog := by
  unfold Node.lastTermLocked Storage.lastTerm endTerm Consensus.lastTerm Node.fullLog
  rw [List.getLast?_append]
  cases last : n.log.getLast? with
  | some entry => rfl
  | none =>
      rw [Option.none_or]
      have term : n.snapshot.lastIncludedTerm = endTerm n.snapshot.history := by
        rw [whole.folded]
        rfl
      exact term

end Node.Whole

/-- A snapshot of chosen entries. -/
structure Agreed (a : Ideal) (snapshot : Snapshot) : Prop where
  folded : snapshot = foldOf snapshot.history
  ordered : Contiguous 0 snapshot.history
  chosen : ∃ t, Consensus.Chosen a t snapshot.history

/-- `node` has acknowledged the first `index` entries of the leader of `term`. -/
def Acked (a : Ideal) (node : NodeId) (term index : Nat) : Prop :=
  index = 0 ∨ ∃ ack ∈ a.acks, ack.node = node ∧ ack.term = term ∧ index ≤ ack.index

def bodyOf (codec : SnapshotCodec) (history : List LogEntry) : Bytes :=
  codec.marshal (some (KVStateMachine.replay ∅ history))

/-- The buffer holds the first bytes of a snapshot of chosen entries. -/
def SnapshotProgress.Follows (progress : SnapshotProgress) (a : Ideal) (codec : SnapshotCodec) :
    Prop :=
  ∃ history, history ≠ [] ∧ (∃ t, Consensus.Chosen a t history) ∧
    progress.lastIncludedIndex = history.length ∧ progress.buffer <+: bodyOf codec history

def ballotOf (votedFor : NodeId) : Option NodeId := if votedFor = "" then none else some votedFor

/-- What the leader of the current term knows: what is acknowledged, and that nothing is decided
beyond what it has committed and the log it started from. -/
structure Node.Leads (n : Node) (a : Ideal) (v : NodeId) : Prop where
  own : Acked a v n.currentTerm n.fullLog.length
  peers : ∀ peer, peer ≠ v → Acked a peer n.currentTerm (n.matchIndex peer)
  decided : a.decided n.currentTerm ≤ n.commitIndex
  noop : ∃ won, a.election n.currentTerm = some won ∧ won.leader = v ∧
    won.log.length < n.leaderNoopIndex

/-- Memory is what the protocol says about `v`. -/
structure Node.Realizes (n : Node) (a : Ideal) (codec : SnapshotCodec) (v : NodeId) : Prop where
  wf : WellFormed n
  snapshot : Agreed a n.snapshot
  term : a.term v = n.currentTerm
  voted : a.voted v = ballotOf n.votedFor
  role : a.role v = n.role
  log : a.log v = n.fullLog
  committed : Consensus.Chosen a (a.term v) (n.fullLog.take n.commitIndex)
  leads : n.role = .leader → n.Leads a v
  pending : ∀ progress, n.pendingSnapshot = some progress → progress.Follows a codec

/-- A request for votes of a campaign on record. -/
def RequestVoteRequest.Follows (req : RequestVoteRequest) (a : Ideal) : Prop :=
  ∃ log, a.campaign req.candidateID req.term = some log ∧ req.lastLogIndex = log.length ∧
    req.lastLogTerm = endTerm log

/-- A request with a part of the log of the leader of its term. -/
structure AppendEntriesRequest.Follows (req : AppendEntriesRequest) (a : Ideal) : Prop where
  led : (a.election req.term).isSome
  reach : req.prevLogIndex ≤ (a.leaderLog req.term).length
  slice : (a.leaderLog req.term).take req.prevLogIndex ++ req.entries <+: a.leaderLog req.term
  previous : endTerm ((a.leaderLog req.term).take req.prevLogIndex) = req.prevLogTerm
  bound : req.leaderCommit ≤ (a.leaderLog req.term).length
  commit : Consensus.Chosen a req.term ((a.leaderLog req.term).take req.leaderCommit)
  ordered : Contiguous req.prevLogIndex req.entries

/-- A chunk of a snapshot that the leader of its term has sent. -/
structure InstallSnapshotRequest.Follows (req : InstallSnapshotRequest) (a : Ideal)
    (codec : SnapshotCodec) :
    Prop where
  led : (a.election req.term).isSome
  nonempty : req.history ≠ []
  ordered : Contiguous 0 req.history
  chosen : Consensus.Chosen a req.term req.history
  index : req.lastIncludedIndex = req.history.length
  term : req.lastIncludedTerm = endTerm req.history
  offset : req.offset ≤ (bodyOf codec req.history).length
  chunk : (bodyOf codec req.history).take req.offset ++ req.data <+: bodyOf codec req.history
  finished : req.done = true → req.offset + req.data.length = (bodyOf codec req.history).length

section Monotone

variable {a b : Ideal} {codec : SnapshotCodec} (grows : Consensus.Extends a b)

include grows

theorem Agreed.mono {snapshot : Snapshot} (agreed : Agreed a snapshot) : Agreed b snapshot := by
  rcases agreed with ⟨folded, ordered, t, chosen⟩
  exact ⟨folded, ordered, t, chosen.mono grows le_rfl⟩

theorem Acked.mono {node : NodeId} {term index : Nat} (acked : Acked a node term index) :
    Acked b node term index := by
  rcases acked with zero | ⟨ack, member, facts⟩
  · exact Or.inl zero
  · exact Or.inr ⟨ack, grows.acks member, facts⟩

theorem SnapshotProgress.Follows.mono {progress : SnapshotProgress}
    (follows : progress.Follows a codec) :
    progress.Follows b codec := by
  rcases follows with ⟨history, nonempty, ⟨t, chosen⟩, facts⟩
  exact ⟨history, nonempty, ⟨t, chosen.mono grows le_rfl⟩, facts⟩

theorem RequestVoteRequest.Follows.mono {req : RequestVoteRequest} (follows : req.Follows a) :
    req.Follows b := by
  rcases follows with ⟨log, standing, facts⟩
  exact ⟨log, grows.campaign _ _ _ standing, facts⟩

theorem AppendEntriesRequest.Follows.mono {req : AppendEntriesRequest} (follows : req.Follows a) :
    req.Follows b := by
  have longer := (grows.leaderLog req.term).length_le
  have same := grows.take follows.reach
  refine ⟨grows.electionSome follows.led, follows.reach.trans longer, ?_, ?_,
    follows.bound.trans longer, ?_, follows.ordered⟩
  · rw [same]
    exact follows.slice.trans (grows.leaderLog req.term)
  · rw [same]
    exact follows.previous
  · rw [grows.take follows.bound]
    exact follows.commit.mono grows le_rfl

theorem Node.Leads.mono {n : Node} {v : NodeId} (leads : n.Leads a v)
    (decided : b.decided n.currentTerm = a.decided n.currentTerm) : n.Leads b v := by
  rcases leads.noop with ⟨won, elected, facts⟩
  exact ⟨leads.own.mono grows, fun peer other => (leads.peers peer other).mono grows,
    decided.trans_le leads.decided, won, grows.election _ won elected, facts⟩

theorem InstallSnapshotRequest.Follows.mono {req : InstallSnapshotRequest}
    (follows : req.Follows a codec) :
    req.Follows b codec :=
  { follows with
    led := grows.electionSome follows.led
    chosen := follows.chosen.mono grows le_rfl }

end Monotone

theorem Node.Leads.congr {n m : Node} {a : Ideal} {v : NodeId} (leads : n.Leads a v)
    (log : m.fullLog = n.fullLog) (commit : n.commitIndex ≤ m.commitIndex)
    (term : m.currentTerm = n.currentTerm) (progress : m.matchIndex = n.matchIndex)
    (noop : m.leaderNoopIndex = n.leaderNoopIndex) : m.Leads a v := by
  rcases leads with ⟨own, peers, decided, won⟩
  rw [← log, ← term] at own
  rw [← term, ← progress] at peers
  rw [← term] at decided
  rw [← term, ← noop] at won
  exact ⟨own, peers, decided.trans commit, won⟩

namespace Node.Realizes

variable {n m : Node} {a b : Ideal} {codec : SnapshotCodec} {v : NodeId}

theorem whole (realizes : n.Realizes a codec v) : n.Whole :=
  ⟨realizes.snapshot.folded, realizes.snapshot.ordered, realizes.wf.contiguous⟩

theorem other (realizes : n.Realizes a codec v) {u : NodeId} (acts : Consensus.Acts u a b)
    (other : v ≠ u) :
    n.Realizes b codec v where
  wf := realizes.wf
  snapshot := realizes.snapshot.mono acts.grows
  term := (acts.term v other).trans realizes.term
  voted := (acts.voted v other).trans realizes.voted
  role := (acts.role v other).trans realizes.role
  log := (acts.log v other).trans realizes.log
  committed := realizes.committed.mono acts.grows (acts.grows.term v)
  leads := by
    intro leader
    rcases (realizes.leads leader).noop with ⟨won, elected, own, -⟩
    exact (realizes.leads leader).mono acts.grows (acts.decided _ won elected (own ▸ other))
  pending := fun progress found => (realizes.pending progress found).mono acts.grows

theorem chosen (realizes : n.Realizes a codec v) {index : Nat} (bound : index ≤ n.commitIndex) :
    Consensus.Chosen a (a.term v) (n.fullLog.take index) :=
  realizes.committed.initial (List.take_isPrefix_take.mpr (Or.inl bound))

end Node.Realizes

end GoRaftKV.Raft
