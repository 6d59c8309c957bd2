import GoRaftKV.Raft.Authorship
import GoRaftKV.Server.Api

/-! Calls between the processes: `GRPCTransport` on one side of a connection and `Service` on the
other, with the JSON messages in between. A handler returns what it leaves behind in its process
beside the response. -/

namespace GoRaftKV.Storage

/-- The numbers are ones of the wire format. -/
structure LogEntry.Fits (entry : LogEntry) : Prop where
  index : entry.index < 2 ^ 64
  term : entry.term < 2 ^ 64

end GoRaftKV.Storage

namespace GoRaftKV.Raft

structure RequestVoteRequest.Fits (req : RequestVoteRequest) : Prop where
  term : req.term < 2 ^ 64
  lastLogIndex : req.lastLogIndex < 2 ^ 64
  lastLogTerm : req.lastLogTerm < 2 ^ 64

def RequestVoteResponse.Fits (resp : RequestVoteResponse) : Prop := resp.term < 2 ^ 64

structure AppendEntriesRequest.Fits (req : AppendEntriesRequest) : Prop where
  term : req.term < 2 ^ 64
  prevLogIndex : req.prevLogIndex < 2 ^ 64
  prevLogTerm : req.prevLogTerm < 2 ^ 64
  entries : ∀ entry ∈ req.entries, entry.Fits
  leaderCommit : req.leaderCommit < 2 ^ 64

structure AppendEntriesResponse.Fits (resp : AppendEntriesResponse) : Prop where
  term : resp.term < 2 ^ 64
  conflictIndex : resp.conflictIndex < 2 ^ 64
  lastLogIndex : resp.lastLogIndex < 2 ^ 64

structure InstallSnapshotRequest.Fits (req : InstallSnapshotRequest) : Prop where
  term : req.term < 2 ^ 64
  lastIncludedIndex : req.lastIncludedIndex < 2 ^ 64
  lastIncludedTerm : req.lastIncludedTerm < 2 ^ 64
  offset : req.offset < 2 ^ 64

structure InstallSnapshotResponse.Fits (resp : InstallSnapshotResponse) : Prop where
  term : resp.term < 2 ^ 64
  bytesReceived : resp.bytesReceived < 2 ^ 64

def Request.Fits : Request → Prop
  | .vote req => req.Fits
  | .append req => req.Fits
  | .snapshot req => req.Fits

end GoRaftKV.Raft

namespace GoRaftKV.Server

open Storage Raft

/-! ### Peers -/

/-- The handlers of a node that its peers call. -/
structure Peer (World : Type) where
  handleRequestVote : RequestVoteRequest → World × RequestVoteResponse
  handleAppendEntries : AppendEntriesRequest → World × AppendEntriesResponse
  handleInstallSnapshot : InstallSnapshotRequest → World × InstallSnapshotResponse

def apiToLogEntries (entries : List Api.LogEntry) : List LogEntry :=
  entries.map fun entry =>
    { index := entry.index.toNat, term := entry.term.toNat, command := decodeCommand entry.command }

def logEntriesToAPI (entries : List LogEntry) : List Api.LogEntry :=
  entries.map fun entry =>
    { index := .ofNat entry.index, term := .ofNat entry.term,
      command := encodeCommand entry.command }

namespace Service

variable {World : Type} (peer : Peer World)

def requestVote (req : Api.RequestVoteRequest) : World × Api.RequestVoteResponse :=
  let (world, resp) := peer.handleRequestVote {
    term := req.term.toNat
    candidateID := req.candidateID
    lastLogIndex := req.lastLogIndex.toNat
    lastLogTerm := req.lastLogTerm.toNat }
  (world, { term := .ofNat resp.term, voteGranted := resp.voteGranted })

def appendEntries (req : Api.AppendEntriesRequest) : World × Api.AppendEntriesResponse :=
  let (world, resp) := peer.handleAppendEntries {
    term := req.term.toNat
    leaderID := req.leaderID
    prevLogIndex := req.prevLogIndex.toNat
    prevLogTerm := req.prevLogTerm.toNat
    entries := apiToLogEntries req.entries
    leaderCommit := req.leaderCommit.toNat }
  (world, {
    term := .ofNat resp.term
    success := resp.success
    conflictIndex := .ofNat resp.conflictIndex
    matchIndex := .ofNat resp.lastLogIndex })

def installSnapshot (req : Api.InstallSnapshotRequest) : World × Api.InstallSnapshotResponse :=
  let (world, resp) := peer.handleInstallSnapshot {
    term := req.term.toNat
    leaderID := req.leaderID
    lastIncludedIndex := req.lastIncludedIndex.toNat
    lastIncludedTerm := req.lastIncludedTerm.toNat
    offset := req.offset.toNat
    data := req.data
    done := req.done }
  (world, {
    term := .ofNat resp.term
    success := resp.success
    bytesReceived := .ofNat resp.bytesReceived })

end Service

namespace GRPCTransport

variable {World : Type} (peer : Peer World)

def requestVote (req : RequestVoteRequest) : Option (World × RequestVoteResponse) :=
  (Api.invoke Api.RequestVoteRequest.schema Api.RequestVoteResponse.schema
    (Service.requestVote peer) {
    term := .ofNat req.term
    candidateID := req.candidateID
    lastLogIndex := .ofNat req.lastLogIndex
    lastLogTerm := .ofNat req.lastLogTerm }).map fun (world, resp) =>
      (world, { term := resp.term.toNat, voteGranted := resp.voteGranted })

def appendEntries (req : AppendEntriesRequest) : Option (World × AppendEntriesResponse) :=
  (Api.invoke Api.AppendEntriesRequest.schema Api.AppendEntriesResponse.schema
    (Service.appendEntries peer) {
    term := .ofNat req.term
    leaderID := req.leaderID
    prevLogIndex := .ofNat req.prevLogIndex
    prevLogTerm := .ofNat req.prevLogTerm
    entries := logEntriesToAPI req.entries
    leaderCommit := .ofNat req.leaderCommit }).map fun (world, resp) =>
      (world, {
        term := resp.term.toNat
        success := resp.success
        conflictIndex := resp.conflictIndex.toNat
        lastLogIndex := resp.matchIndex.toNat })

def installSnapshot (req : InstallSnapshotRequest) : Option (World × InstallSnapshotResponse) :=
  (Api.invoke Api.InstallSnapshotRequest.schema Api.InstallSnapshotResponse.schema
    (Service.installSnapshot peer) {
      term := .ofNat req.term
      leaderID := req.leaderID
      lastIncludedIndex := .ofNat req.lastIncludedIndex
      lastIncludedTerm := .ofNat req.lastIncludedTerm
      offset := .ofNat req.offset
      data := req.data
      done := req.done }).map fun (world, resp) =>
        (world, {
          term := resp.term.toNat
          success := resp.success
          bytesReceived := resp.bytesReceived.toNat })

end GRPCTransport

theorem toNat_ofNat_fits {n : Nat} (fits : n < 2 ^ 64) : (UInt64.ofNat n).toNat = n :=
  UInt64.toNat_ofNat_of_lt fits

theorem apiToLogEntries_logEntriesToAPI {entries : List LogEntry}
    (fits : ∀ entry ∈ entries, entry.Fits) (named : ∀ entry ∈ entries, entry.command.Named) :
    apiToLogEntries (logEntriesToAPI entries) = entries := by
  rw [apiToLogEntries, logEntriesToAPI, List.map_map]
  refine (List.map_congr_left fun entry member => ?_).trans (List.map_id entries)
  have within := fits entry member
  simp only [Function.comp_apply, toNat_ofNat_fits within.index, toNat_ofNat_fits within.term,
    decodeCommand_encodeCommand (named entry member), id_eq]

namespace GRPCTransport

variable {World : Type} {peer : Peer World}

theorem requestVote_eq {req : RequestVoteRequest} (fits : req.Fits)
    (answers : (peer.handleRequestVote req).2.Fits) :
    requestVote peer req = some (peer.handleRequestVote req) := by
  obtain ⟨term, index, logTerm⟩ := fits
  simp only [requestVote, Api.invoke_eq, Service.requestVote, toNat_ofNat_fits, term, index,
    logTerm]
  simp only [Option.map_some, toNat_ofNat_fits answers]

theorem appendEntries_eq {req : AppendEntriesRequest} (fits : req.Fits)
    (named : ∀ entry ∈ req.entries, entry.command.Named)
    (answers : (peer.handleAppendEntries req).2.Fits) :
    appendEntries peer req = some (peer.handleAppendEntries req) := by
  obtain ⟨term, index, logTerm, entries, commit⟩ := fits
  simp only [appendEntries, Api.invoke_eq, Service.appendEntries, toNat_ofNat_fits, term, index,
    logTerm, commit, apiToLogEntries_logEntriesToAPI entries named]
  simp only [Option.map_some, toNat_ofNat_fits answers.term, toNat_ofNat_fits answers.conflictIndex,
    toNat_ofNat_fits answers.lastLogIndex]

theorem installSnapshot_eq {req : InstallSnapshotRequest} (fits : req.Fits)
    (answers : (peer.handleInstallSnapshot { req with history := [] }).2.Fits) :
    installSnapshot peer req = some (peer.handleInstallSnapshot { req with history := [] }) := by
  obtain ⟨term, index, snapTerm, offset⟩ := fits
  simp only [installSnapshot, Api.invoke_eq, Service.installSnapshot, toNat_ofNat_fits, term, index,
    snapTerm, offset]
  simp only [Option.map_some, toNat_ofNat_fits answers.term, toNat_ofNat_fits answers.bytesReceived]

/-- The handler gets the request and the caller the response, apart from the ghost of a snapshot. -/
def Intact (peer : Peer World) : Request → Prop
  | .vote req =>
      (peer.handleRequestVote req).2.Fits → requestVote peer req = some (peer.handleRequestVote req)
  | .append req =>
      (peer.handleAppendEntries req).2.Fits →
      appendEntries peer req = some (peer.handleAppendEntries req)
  | .snapshot req =>
      (peer.handleInstallSnapshot { req with history := [] }).2.Fits →
        installSnapshot peer req = some (peer.handleInstallSnapshot { req with history := [] })

end GRPCTransport

end GoRaftKV.Server

namespace GoRaftKV.Raft.Cluster

open Storage Server

variable {setting : Setting} {w : Cluster}

/-- Clients propose commands that are given by their strings, as `Service` does. -/
def Worded (_ : Cluster) : Event → Prop
  | .propose _ command _ => command.Named
  | _ => True

instance (w : Cluster) (event : Event) : Decidable (w.Worded event) := by
  unfold Worded Command.Named
  split <;> infer_instance

theorem worded_of_run (run : Run setting Worded initial w) :
    w.Carries fun entry => entry.command.Named := by
  induction run with
  | refl => exact carries_initial
  | tail _ step ih =>
      rcases step with ⟨event, next, worded, taken⟩
      refine ih.step taken fun entry made => ?_
      rcases makes_cases made with
        ⟨author, p, fates, rfl, -⟩ | ⟨author, p, number, request, fates, -, -, -, -, rfl⟩
      · exact worded
      · exact Command.named_ofName "noop" "" "" ""

/-- Whatever has happened in the cluster, each request that is handed to the transport reaches the
receiver's handler as it was sent, and the response comes back as it was given. -/
theorem calls_intact (run : Run setting Worded initial w) {call : Call} (sent : call ∈ w.calls)
    (fits : call.request.Fits) {World : Type} (peer : Peer World) :
    GRPCTransport.Intact peer call.request := by
  have named := (worded_of_run run).ledger.calls call sent
  cases request : call.request with
  | vote req =>
      rw [request] at fits
      exact GRPCTransport.requestVote_eq fits
  | append req =>
      simp only [carried, request] at fits named
      exact GRPCTransport.appendEntries_eq fits named
  | snapshot req =>
      rw [request] at fits
      exact GRPCTransport.installSnapshot_eq fits

def forwarding : List Event := accepting ++ [.replicate "a" "c"]

def forwarded (w : Cluster) : Bool :=
  w.calls.any fun call =>
    match call.request with
    | .append req =>
        req.term = 1 ∧ req.prevLogIndex = 0 ∧ req.prevLogTerm = 0 ∧ req.leaderCommit = 0 ∧
          req.entries = [⟨1, 1, { op := .noop }⟩, ⟨2, 1, { op := .put, key := "k", value := "v" }⟩]
    | _ => false

def archive : Peer (List Request) where
  handleRequestVote req := ([.vote req], { term := req.term, voteGranted := true })
  handleAppendEntries req :=
    ([.append req], { term := req.term, success := true, lastLogIndex := 2 })
  handleInstallSnapshot req := ([.snapshot req], { term := req.term, success := true })

theorem calls_intact_forwarded : ∃ w call req, Run trioSetting Worded initial w ∧ call ∈ w.calls ∧
    call.request = .append req ∧ req.entries.length = 2 ∧
    GRPCTransport.appendEntries archive req =
      some ([.append req], { term := 1, success := true, lastLogIndex := 2 }) := by
  have played : (play trioSetting Worded initial forwarding).any forwarded = true := by
    decide +kernel
  rcases play_any played with ⟨w, run, ended⟩
  simp only [forwarded, List.any_eq_true] at ended
  rcases ended with ⟨call, sent, carries⟩
  split at carries
  · rename_i req request
    simp only [decide_eq_true_eq] at carries
    obtain ⟨term, prevLogIndex, prevLogTerm, leaderCommit, entries⟩ := carries
    have fits : req.Fits := by
      refine ⟨by omega, by omega, by omega, fun entry member => ?_, by omega⟩
      rw [entries] at member
      simp only [List.mem_cons, List.not_mem_nil, or_false] at member
      rcases member with rfl | rfl <;> exact ⟨by decide, by decide⟩
    have intact := calls_intact run sent (request ▸ fits) archive
    rw [request] at intact
    have answers : (archive.handleAppendEntries req).2.Fits :=
      ⟨fits.term, show 0 < 2 ^ 64 by decide, show 2 < 2 ^ 64 by decide⟩
    refine ⟨w, call, req, run, sent, request, by rw [entries]; rfl, ?_⟩
    rw [intact answers, ← term]
    rfl
  · cases carries

end GoRaftKV.Raft.Cluster
