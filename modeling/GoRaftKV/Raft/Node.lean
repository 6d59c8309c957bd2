import GoRaftKV.Raft.Types

namespace GoRaftKV.Raft

open Storage Library

/-- The channel a `Propose` call waits on. -/
abbrev ChanId := Nat

structure ApplyOutcome where
  result : ApplyResult := {}
  err : Option NodeError := none
  deriving DecidableEq, Repr

/-- The waiter is told that its node does not lead. -/
def ApplyOutcome.deniesLeadership (outcome : ApplyOutcome) : Bool :=
  match outcome.err with
  | some (.notLeader _ _) => true
  | _ => false

structure SnapshotProgress where
  leaderID : NodeId
  lastIncludedIndex : Nat
  lastIncludedTerm : Nat
  buffer : Bytes
  deriving DecidableEq, Repr

/-- The chunk belongs to the stream in progress. -/
def SnapshotProgress.matches (progress : SnapshotProgress) (req : InstallSnapshotRequest) : Bool :=
  progress.leaderID = req.leaderID ∧ progress.lastIncludedIndex = req.lastIncludedIndex ∧
    progress.lastIncludedTerm = req.lastIncludedTerm

/-- The fields of `Node` guarded by `n.mu`. A map of the source is a function that answers the zero
value for a missing key; `waiters` lists each registered channel with its index; `delivered` is
what has been sent on channels. `sm` is the state machine's map and `history` the ghost list of
the entries folded into it. -/
structure Node where
  role : Role := .follower
  currentTerm : Nat := 0
  votedFor : NodeId := ""
  leaderID : NodeId := ""
  log : List LogEntry := []
  snapshot : Snapshot := {}
  commitIndex : Nat := 0
  lastApplied : Nat := 0
  leaderNoopIndex : Nat := 0
  nextIndex : NodeId → Nat := fun _ => 0
  matchIndex : NodeId → Nat := fun _ => 0
  replicating : NodeId → Bool := fun _ => false
  waiters : List (Nat × ChanId) := []
  delivered : List (ChanId × ApplyOutcome) := []
  proposed : List (ChanId × LogEntry) := []
  applies : List (LogEntry × ApplyResult) := []
  pendingSnapshot : Option SnapshotProgress := none
  storageFatal : Bool := false
  stopped : Bool := false
  sm : KVMap := ∅
  history : List LogEntry := []

namespace Node

def lastIndexLocked (n : Node) : Nat := lastIndex n.snapshot n.log

def lastTermLocked (n : Node) : Nat := lastTerm n.snapshot n.log

def entryAtLocked (n : Node) (index : Nat) : Option LogEntry :=
  if index ≤ n.snapshot.lastIncludedIndex then none
  else
    match n.log[index - n.snapshot.lastIncludedIndex - 1]? with
    | none => none
    | some entry => if entry.index = index then some entry else none

def termAtLocked (n : Node) (index : Nat) : Option Nat :=
  if index = 0 then some 0
  else if index = n.snapshot.lastIncludedIndex then some n.snapshot.lastIncludedTerm
  else (n.entryAtLocked index).map LogEntry.term

def entriesFromLocked (n : Node) (index : Nat) : List LogEntry :=
  n.log.filter fun entry => index ≤ entry.index

def truncateFromLocked (n : Node) (index : Nat) : Node :=
  if index ≤ n.snapshot.lastIncludedIndex then { n with log := [] }
  else { n with log := n.log.take (index - n.snapshot.lastIncludedIndex - 1) }

/-- The loop of `conflictIndexLocked`: back over the entries that share `term`. -/
def walkBack (n : Node) (term : Nat) : Nat → Nat
  | 0 => 0
  | index + 1 =>
      if n.snapshot.lastIncludedIndex + 1 < index + 1 ∧ n.termAtLocked index = some term then
        n.walkBack term index
      else index + 1

def conflictIndexLocked (n : Node) (index : Nat) : Nat :=
  if n.lastIndexLocked < index then n.lastIndexLocked + 1
  else if index ≤ n.snapshot.lastIncludedIndex then n.snapshot.lastIncludedIndex + 1
  else
    match n.termAtLocked index with
    | none => n.lastIndexLocked + 1
    | some term => n.walkBack term index

/-- The loop of `validateEntriesLocked` from the index `prev` of the last accepted entry (zero at
the start); the answer is zero or a conflict index. -/
def validateFrom (snapshotIndex prevLogIndex : Nat) : Nat → List LogEntry → Nat
  | _, [] => 0
  | prev, entry :: entries =>
      if entry.index ≤ snapshotIndex then validateFrom snapshotIndex prevLogIndex prev entries
      else if prev = 0 ∧ entry.index ≠ prevLogIndex + 1 then prevLogIndex + 1
      else if prev ≠ 0 ∧ entry.index ≠ prev + 1 then prev + 1
      else validateFrom snapshotIndex prevLogIndex entry.index entries

def validateEntriesLocked (n : Node) (prevLogIndex : Nat) (entries : List LogEntry) : Nat :=
  validateFrom n.snapshot.lastIncludedIndex prevLogIndex 0 entries

structure MergeEntriesResult where
  changed : Bool := false
  replaced : Bool := false
  appended : List LogEntry := []
  conflictIndex : Nat := 0
  lastNewIndex : Nat := 0
  deriving DecidableEq, Repr

def lastNewIndex (n : Node) (prevLogIndex : Nat) (entries : List LogEntry) : Nat :=
  entries.foldl (fun last entry =>
    if n.snapshot.lastIncludedIndex < entry.index ∧ last < entry.index then entry.index else last)
    prevLogIndex

/-- The merging loop of `mergeEntriesLocked` over the entries that are left. -/
def mergeLoop (n : Node) (result : MergeEntriesResult) : List LogEntry → Node × MergeEntriesResult
  | [] => (n, result)
  | entry :: entries =>
      if entry.index ≤ n.snapshot.lastIncludedIndex then n.mergeLoop result entries
      else if entry.index ≤ n.lastIndexLocked then
        if n.termAtLocked entry.index = some entry.term then n.mergeLoop result entries
        else if entry.index ≤ n.commitIndex then
          (n, { conflictIndex := entry.index, lastNewIndex := result.lastNewIndex })
        else
          let n := n.truncateFromLocked entry.index
          ({ n with log := n.log ++ entry :: entries },
            { changed := true, replaced := true, lastNewIndex := result.lastNewIndex })
      else if entry.index ≠ n.lastIndexLocked + 1 then
        (n, { conflictIndex := n.lastIndexLocked + 1 })
      else
        mergeLoop { n with log := n.log ++ [entry] }
          { result with changed := true, appended := result.appended ++ [entry] } entries

def mergeEntriesLocked (n : Node) (prevLogIndex : Nat) (entries : List LogEntry) :
    Node × MergeEntriesResult :=
  let conflictIndex := n.validateEntriesLocked prevLogIndex entries
  if 0 < conflictIndex then (n, { conflictIndex := conflictIndex })
  else n.mergeLoop { lastNewIndex := n.lastNewIndex prevLogIndex entries } entries

def logAfterSnapshotLocked (n : Node) (snapshot : Snapshot) : List LogEntry :=
  if n.termAtLocked snapshot.lastIncludedIndex = some snapshot.lastIncludedTerm then
    n.log.filter fun entry => snapshot.lastIncludedIndex < entry.index
  else []

def snapshotAtLocked (n : Node) (index : Nat) : Option Snapshot :=
  (n.termAtLocked index).map fun term =>
    { lastIncludedIndex := index, lastIncludedTerm := term, data := some n.sm,
      history := n.history }

def leaderAddressLocked (n : Node) (cfg : Config) : String :=
  if n.leaderID = "" then ""
  else if cfg.clientAddress n.leaderID ≠ "" then cfg.clientAddress n.leaderID
  else if n.leaderID = cfg.id then cfg.address
  else cfg.peerAddress n.leaderID

def notLeaderLocked (n : Node) (cfg : Config) : NodeError :=
  .notLeader n.leaderID (n.leaderAddressLocked cfg)

/-- Sends `outcome` to every waiter that `choose` selects by its index, and drops it. -/
def resolveWaiters (n : Node) (choose : Nat → Bool) (outcome : ApplyOutcome) : Node :=
  { n with
    waiters := n.waiters.filter fun waiter => !choose waiter.1
    delivered := n.delivered ++
      (n.waiters.filter fun waiter => choose waiter.1).map fun waiter => (waiter.2, outcome) }

def failUncommittedWaitersLocked (n : Node) (cfg : Config) : Node :=
  n.resolveWaiters (fun index => n.commitIndex < index) { err := some (n.notLeaderLocked cfg) }

def finishWaitersLocked (n : Node) (index : Nat) (result : ApplyResult) : Node :=
  n.resolveWaiters (fun other => other = index) { result := result }

def removeWaiter (n : Node) (index : Nat) (target : ChanId) : Node :=
  { n with waiters := n.waiters.erase (index, target) }

/-- What a channel holds, if anything has been sent on it. -/
def received (n : Node) (chan : ChanId) : Option ApplyOutcome :=
  (n.delivered.find? fun sent => sent.1 = chan).map Prod.snd

def failStorageLocked (n : Node) (cfg : Config) : Node :=
  failUncommittedWaitersLocked
    { n with storageFatal := true, role := .follower, leaderID := "", leaderNoopIndex := 0 } cfg

def hardState (n : Node) (commitIndex : Nat) : HardState :=
  { currentTerm := n.currentTerm, votedFor := n.votedFor, commitIndex := commitIndex }

/-- The number of nodes `advanceCommitLocked` counts for `index`, the leader included. -/
def replicaCount (n : Node) (cfg : Config) (index : Nat) : Nat :=
  1 + (cfg.peerAddrs.filter fun peer => index ≤ n.matchIndex peer).card

/-- The downward scan of `advanceCommitLocked`. -/
def commitTarget (n : Node) (cfg : Config) : Nat → Option Nat
  | 0 => none
  | index + 1 =>
      if index + 1 ≤ n.commitIndex then none
      else if n.termAtLocked (index + 1) = some n.currentTerm ∧
          cfg.quorum ≤ n.replicaCount cfg (index + 1) then some (index + 1)
      else n.commitTarget cfg index

/-- Ghost: the whole log, compacted entries included. -/
def fullLog (n : Node) : List LogEntry := n.snapshot.history ++ n.log

end Node

def resultFromOutcome (outcome : ApplyOutcome) : ApplyResult × Option NodeError :=
  match outcome.err with
  | some err => ({}, some err)
  | none =>
      if outcome.result.ok = false ∧ outcome.result.error ≠ "" then
        (outcome.result, some (.rejected outcome.result.error))
      else (outcome.result, none)

end GoRaftKV.Raft
