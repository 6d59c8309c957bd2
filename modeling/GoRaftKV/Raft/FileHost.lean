import GoRaftKV.Raft.FailClosed
import GoRaftKV.Storage.Directory

/-! Machines whose data directory is made of bytes. A section makes the same calls as on the
records of `Host`, and `NewNode` starts from what `Load` finds in the files. -/

namespace GoRaftKV.Raft

open Storage Library Program

/-! ### Who appends when -/

namespace Node

variable {n : Node} {cfg : Config} {α : Type}

/-- No call of the program extends a file in place. -/
abbrev Replaces (program : Program StoreOp α) : Prop :=
  program.Does (fun op => op.appends = false) fun _ => True

/-- The program appends only while the WAL is `intact`, and if an append has failed then so has the
node's storage. -/
abbrev Tidy (intact : Bool) (program : Program StoreOp α) (memory : α → Node) : Prop :=
  program.Careful StoreOp.appends (fun value intact => intact = false →
    (memory value).storageFatal = true) intact

theorem Replaces.tidy {program : Program StoreOp α} (replaces : Replaces program)
    (memory : α → Node) :
    Tidy true program memory :=
  Does.careful (replaces.mono fun _ _ => nofun)

theorem Replaces.sealed {program : Program StoreOp α} (replaces : Replaces program)
    {memory : α → Node} (sealed : program.All fun value => Seals n (memory value)) :
    Tidy (!n.storageFatal) program memory := by
  apply Does.careful
  apply (Does.and replaces sealed).mono
  intro value seals failed
  exact seals.2.stays (by simpa using failed)

theorem becomeFollowerLocked_replaces (term : Nat) (leaderID : NodeId) :
    Replaces (n.becomeFollowerLocked cfg term leaderID) := by
  simp only [Replaces, becomeFollowerLocked, persistHardStateLocked, saveHardStateLocked,
    perform_bind, does_call]
  refine ⟨rfl, ?_, trivial⟩
  simp only [if_true]
  split <;> trivial

theorem castVote_replaces (req : RequestVoteRequest) : Replaces (n.castVote req) := by
  unfold castVote
  split
  · simp only [persistHardStateLocked, saveHardStateLocked, perform_bind, Replaces, does_call]
    exact ⟨rfl, trivial, trivial⟩
  · trivial

theorem handleRequestVote_replaces (req : RequestVoteRequest) :
    Replaces (n.handleRequestVote cfg req) := by
  unfold handleRequestVote
  split
  · trivial
  split
  · trivial
  split
  · trivial
  split
  · refine Does.bind ((becomeFollowerLocked_replaces req.term "").mono ?_)
    rintro ⟨m, saved⟩ -
    cases saved with
    | true => exact castVote_replaces req
    | false => trivial
  · exact castVote_replaces req

theorem commitTo_replaces (newCommit : Nat) : Replaces (n.commitTo newCommit) := by
  unfold commitTo
  split
  · simp only [persistHardStateLocked, saveHardStateLocked, perform_bind, Replaces, does_call]
    exact ⟨rfl, trivial, trivial⟩
  · trivial

theorem spliceEntries_tidy (req : AppendEntriesRequest) :
    Tidy true (n.spliceEntries cfg req) Prod.fst := by
  unfold spliceEntries
  generalize n.mergeEntriesLocked req.prevLogIndex req.entries = outcome
  rcases outcome with ⟨merged, merge⟩
  simp only
  split
  · exact nofun
  split
  · -- The only write that may append; if it fails, the node is given up.
    exact ⟨fun _ => rfl, (commitTo_replaces _).tidy Prod.fst, fun _ => rfl⟩
  · exact (commitTo_replaces _).tidy Prod.fst

theorem matchEntries_tidy (req : AppendEntriesRequest) :
    Tidy true (n.matchEntries cfg req) Prod.fst := by
  unfold matchEntries
  simp only
  split
  · exact nofun
  split
  · exact nofun
  · exact spliceEntries_tidy req

theorem handleAppendEntries_tidy (req : AppendEntriesRequest) :
    Tidy (!n.storageFatal) (n.handleAppendEntries cfg req) Prod.fst := by
  unfold handleAppendEntries
  cases fatal : n.storageFatal with
  | true =>
      simp only [or_true, if_true]
      exact fun _ => fatal
  | false =>
      simp only [Bool.not_false, Bool.false_eq_true, or_false]
      split
      · exact nofun
      split
      · exact nofun
      split
      · exact nofun
      split
      · refine Careful.bind
          (Does.careful ((becomeFollowerLocked_replaces req.term req.leaderID).mono ?_))
        rintro ⟨m, saved⟩ -
        cases saved with
        | true => exact matchEntries_tidy req
        | false => exact nofun
      · exact matchEntries_tidy req

theorem handleInstallSnapshot_replaces (req : InstallSnapshotRequest) :
    Replaces (n.handleInstallSnapshot cfg req) := by
  unfold handleInstallSnapshot
  split
  · trivial
  split
  · trivial
  split
  · trivial
  split
  · refine Does.bind ((becomeFollowerLocked_replaces req.term req.leaderID).mono ?_)
    rintro ⟨m, saved⟩ -
    cases saved <;> trivial
  · trivial

theorem finishInstall_replaces (req : InstallSnapshotRequest) (body : Bytes) (data : Option KVMap) :
    Replaces (n.finishInstall cfg req body data) := by
  unfold finishInstall
  simp only
  split
  · trivial
  split
  · trivial
  split
  · simp only [persistInstall, saveHardStateLocked, perform_bind, Replaces, does_call, if_true]
    exact ⟨rfl, ⟨rfl, ⟨rfl, trivial, trivial⟩, trivial⟩, trivial⟩
  · trivial

theorem installDecoded_replaces (req : InstallSnapshotRequest) (body : Bytes)
    (data : Option KVMap) :
    Replaces (n.installDecoded cfg req body data) := by
  unfold installDecoded
  simp only
  split
  · trivial
  split
  · trivial
  split
  · trivial
  split
  · refine Does.bind ((becomeFollowerLocked_replaces req.term req.leaderID).mono ?_)
    rintro ⟨m, saved⟩ -
    cases saved with
    | true => exact finishInstall_replaces req body data
    | false => trivial
  · exact finishInstall_replaces req body data

theorem advanceCommitLocked_replaces : Replaces (n.advanceCommitLocked cfg) := by
  unfold advanceCommitLocked
  split
  · trivial
  · simp only [persistHardStateLocked, saveHardStateLocked, perform_bind, Replaces, does_call]
    exact ⟨rfl, trivial, trivial⟩

theorem proposeAppend_tidy (command : Command) (chan : ChanId) :
    Tidy (!n.storageFatal) (n.proposeAppend cfg command chan) Prod.fst := by
  unfold proposeAppend
  cases fatal : n.storageFatal with
  | true =>
      split
      · exact fun _ => fatal
      · exact fun _ => fatal
  | false =>
      split
      · exact nofun
      simp only [Bool.false_eq_true, if_false]
      split
      · exact nofun
      · simp only [perform_bind]
        refine ⟨fun _ => rfl, ?_, fun _ => rfl⟩
        simp only [if_true]
        apply Careful.bind
        exact Does.careful (advanceCommitLocked_replaces.mono fun _ _ => nofun)

theorem startElection_replaces : Replaces (n.startElection cfg) := by
  unfold startElection
  split
  · trivial
  · simp only [persistHardStateLocked, saveHardStateLocked, perform_bind, Replaces, does_call]
    exact ⟨rfl, trivial, trivial⟩

theorem becomeLeader_tidy (fallen : n.Fallen) (term : Nat) :
    Tidy (!n.storageFatal) (n.becomeLeader cfg term) id := by
  -- A candidate's storage has not failed.
  unfold becomeLeader
  split
  · exact fun failed => by simpa using failed
  · rename_i eligible
    push Not at eligible
    have sound : n.storageFatal = false := by
      cases fatal : n.storageFatal with
      | false => rfl
      | true =>
          have follows := fallen fatal
          rw [eligible.2.1] at follows
          cases follows
    rw [sound]
    exact ⟨fun _ => rfl, advanceCommitLocked_replaces.tidy id, fun _ => rfl⟩

theorem replicateReply_replaces (peer : NodeId) (req : AppendEntriesRequest)
    (resp : AppendEntriesResponse) :
    Replaces (n.replicateReply cfg peer req resp) := by
  unfold replicateReply
  split
  · exact Does.bind ((becomeFollowerLocked_replaces resp.term "").mono fun _ _ => trivial)
  split
  · trivial
  split
  · exact Does.bind (advanceCommitLocked_replaces.mono fun _ _ => trivial)
  split <;> trivial

theorem sendSnapshotReply_replaces (term : Nat) (resp : InstallSnapshotResponse) :
    Replaces (n.sendSnapshotReply cfg term resp) := by
  unfold sendSnapshotReply
  split
  · exact Does.bind ((becomeFollowerLocked_replaces resp.term "").mono fun _ _ => trivial)
  · trivial

theorem compact_replaces (snapshot : Snapshot) : Replaces (n.compact snapshot) := by
  unfold compact
  split
  · trivial
  · simp only [perform_bind, Replaces, does_call]
    exact ⟨rfl, trivial, trivial⟩

theorem newNode_replaces (loaded : Loaded) : Replaces (newNode loaded) := by
  have saved : Replaces (do
      if loaded.hardState.commitIndex ≠ (restored loaded).commitIndex then
        if ← (restored loaded).persistHardStateLocked then return some (restored loaded)
          else return none
      else return some (restored loaded)) := by
    split
    · simp only [persistHardStateLocked, saveHardStateLocked, perform_bind, Replaces, does_call]
      exact ⟨rfl, trivial, trivial⟩
    · trivial
  unfold newNode
  split
  · simp only [perform_bind, Replaces, does_call]
    exact ⟨rfl, saved, trivial⟩
  · exact saved

theorem tidy_sections (action : Action) (chans : Nat) (fallen : n.Fallen) :
    Sections (fun program memory => Tidy (!n.storageFatal) program memory) cfg chans n action where
  requestVote req _ := (handleRequestVote_replaces req).sealed (handleRequestVote_sealed req fallen)
  appendEntries req _ := handleAppendEntries_tidy req
  installSnapshot _ req _ :=
    (handleInstallSnapshot_replaces req).sealed (handleInstallSnapshot_sealed req fallen)
  installDecoded req body data _ :=
    (installDecoded_replaces req body data).sealed (installDecoded_sealed req body data fallen)
  propose command _ := proposeAppend_tidy command chans
  startElection _ := startElection_replaces.sealed (startElection_sealed fallen)
  becomeLeader term _ := becomeLeader_tidy fallen term
  stepDown term leaderID _ :=
    (becomeFollowerLocked_replaces term leaderID).sealed
    (becomeFollowerLocked_sealed fun _ _ sealed => sealed)
  replicateReply peer req resp _ :=
    (replicateReply_replaces peer req resp).sealed (replicateReply_sealed peer req resp fallen)
  snapshotReply term resp _ :=
    (sendSnapshotReply_replaces term resp).sealed (sendSnapshotReply_sealed term resp fallen)
  persistSave _ _ := Does.careful ⟨rfl, fun _ failed => by simpa using failed⟩
  persistEnd snapshot _ := (compact_replaces snapshot).sealed (compact_sealed snapshot fallen)

end Node

/-! ### Sections as programs -/

/-- A locked section of a running process, as the calls it makes: the process it leaves, if any, the
number of channels handed out, and what it hands out itself. -/
def Proc.program (cfg : Config) (codec : SnapshotCodec) (proc : Proc) (chans : Nat) :
    Action → Program StoreOp (Option Proc × Nat × Output)
  | .requestVote req =>
      (fun r => (some { proc with node := r.1 }, chans, .vote r.2)) <$>
      proc.node.handleRequestVote cfg req
  | .appendEntries req =>
      (fun r => (some { proc with node := r.1 }, chans, .append r.2)) <$>
      proc.node.handleAppendEntries cfg req
  | .installSnapshot number req =>
      match proc.persistMu with
      | .free =>
          (fun r =>
            match r.2 with
            | .answer resp => (some { proc with node := r.1 }, chans, .snapshot number resp)
            | .decode body =>
                (some { proc with node := r.1, persistMu := .decoding number req body }, chans,
                  .nothing)) <$>
            proc.node.handleInstallSnapshot cfg req
      | _ => return (some proc, chans, .nothing)
  | .installDecoded =>
      match proc.persistMu with
      | .decoding number req body =>
          match codec.decodeBody body with
          | none =>
              return (some { proc with node := { proc.node with pendingSnapshot := none },
                                       persistMu := .free }, chans,
                .snapshot number { term := proc.node.currentTerm })
          | some data =>
              if proc.applyMu = .free then
                (fun r => (some { proc with node := r.1, persistMu := .free }, chans,
                  .snapshot number r.2)) <$> proc.node.installDecoded cfg req body data
              else return (some proc, chans, .nothing)
      | _ => return (some proc, chans, .nothing)
  | .propose command =>
      (fun r => (some { proc with node := r.1 }, chans + 1, .proposed chans (r.2.map fun index =>
        { index := index, term := proc.node.currentTerm, command := command }))) <$>
        proc.node.proposeAppend cfg command chans
  | .cancel index chan =>
      return (some { proc with node := proc.node.removeWaiter index chan }, chans,
        .cancelled index chan (proc.node.received chan))
  | .startElection =>
      (fun r => (some { proc with node := r.1 }, chans, .ofElection r.2)) <$>
      proc.node.startElection cfg
  | .becomeLeader term =>
      (fun node => (some { proc with node := node }, chans, .nothing)) <$>
      proc.node.becomeLeader cfg term
  | .stepDown term leaderID =>
      (fun r => (some { proc with node := r.1 }, chans, .nothing)) <$>
        proc.node.becomeFollowerLocked cfg term leaderID
  | .replicate peer =>
      return (some { proc with node := (proc.node.replicateToPeer cfg peer).1 }, chans,
        .dispatch peer (proc.node.replicateToPeer cfg peer).2)
  | .replicateReply peer req resp =>
      (fun r => (some { proc with node := r.1 }, chans, .ofAttempt peer r.2)) <$>
        proc.node.replicateReply cfg peer req resp
  | .snapshotReply term resp =>
      (fun r => (some { proc with node := r.1 }, chans, .chunkAcked (r.2 && resp.success))) <$>
        proc.node.sendSnapshotReply cfg term resp
  | .snapshotSent peer term snapIdx =>
      return (some { proc with node := proc.node.snapshotSent peer term snapIdx }, chans,
        .replicated peer true)
  | .applyNext =>
      match proc.applyMu with
      | .free =>
          match proc.node.applyNext with
          | (node, none) => return (some { proc with node := node }, chans, .nothing)
          | (node, some entry) =>
              return (some { proc with node := node, applyMu := .applying entry }, chans, .nothing)
      | _ => return (some proc, chans, .nothing)
  | .applyEntry =>
      match proc.applyMu with
      | .applying entry =>
          return (some { proc with
            node := (proc.node.applyEntry entry).1
            applyMu := .applied entry (proc.node.applyEntry entry).2 }, chans, .nothing)
      | _ => return (some proc, chans, .nothing)
  | .applyDone =>
      match proc.applyMu with
      | .applied entry result =>
          return (some { proc with
            node := (proc.node.applyDone cfg entry result).1, applyMu := .free
            captured := proc.captured ++ (proc.node.applyDone cfg entry result).2.toList }, chans,
              .nothing)
      | _ => return (some proc, chans, .nothing)
  | .persistCheck position =>
      match proc.persistMu, proc.captured[position]? with
      | .free, some snapshot =>
          if proc.node.worthPersisting snapshot = true then
            return (some { proc with
              captured := proc.captured.eraseIdx position, persistMu := .checked snapshot }, chans,
                .nothing)
          else return (some { proc with captured := proc.captured.eraseIdx position }, chans,
            .nothing)
      | _, _ => return (some proc, chans, .nothing)
  | .persistSave =>
      match proc.persistMu with
      | .checked snapshot =>
          (fun saved => (some { proc with persistMu := if saved then .saved snapshot else .free },
            chans, .nothing)) <$> Program.perform (.saveSnapshot snapshot)
      | _ => return (some proc, chans, .nothing)
  | .persistEnd =>
      match proc.persistMu with
      | .saved snapshot =>
          (fun node => (some { proc with node := node, persistMu := .free }, chans, .nothing)) <$>
            proc.node.compact snapshot
      | _ => return (some proc, chans, .nothing)
  | .stop => return (some { proc with node := proc.node.stop }, chans, .nothing)
  | .crash => return (none, chans, .nothing)
  | .restart => return (some proc, chans, .nothing)

def Host.resume (host : Host) : Outcome (Option Proc × Nat × Output) Disk → Host × Output
  | .done (proc, chans, output) disk => (⟨disk, proc, chans⟩, output)
  | .crashed disk => ({ host with disk := disk, proc := none }, .nothing)

theorem Host.run_eq {α : Type} {host : Host} {program : Program StoreOp α} {fates : List Fate}
    {finish : α → Host × Output} {left : α → Option Proc × Nat × Output}
    (same : ∀ value, (finish value).1.proc = (left value).1 ∧
      (finish value).1.chans = (left value).2.1 ∧ (finish value).2 = (left value).2.2) :
    host.run program fates finish = host.resume ((left <$> program).exec store host.disk
      fates) := by
  unfold Host.run
  rw [exec_map]
  cases program.exec store host.disk fates with
  | done value disk =>
      rcases same value with ⟨proc, chans, output⟩
      simp only [Outcome.map, Host.resume, proc, chans, output]
  | crashed disk => rfl

/-- The program of a section says what the section does. -/
theorem Proc.step_eq {cfg : Config} {codec : SnapshotCodec} {host : Host} {proc : Proc}
    (live : host.proc = some proc) (fates : List Fate) (action : Action) :
    proc.step cfg codec host fates action =
      host.resume ((proc.program cfg codec host.chans action).exec store host.disk fates) := by
  have idle : (host, Output.nothing) =
      host.resume (Program.exec store (ret (some proc, host.chans, Output.nothing)) host.disk
        fates) := by
    rcases host with ⟨disk, _ | other, chans⟩
    · cases live
    · cases live
      rfl
  rcases proc with ⟨node, applyMu, persistMu, captured⟩
  cases action with
  | requestVote req => exact Host.run_eq fun _ => ⟨rfl, rfl, rfl⟩
  | appendEntries req => exact Host.run_eq fun _ => ⟨rfl, rfl, rfl⟩
  | installSnapshot number req =>
      cases persistMu with
      | free =>
          apply Host.run_eq
          rintro ⟨node, progress⟩
          cases progress <;> exact ⟨rfl, rfl, rfl⟩
      | _ => exact idle
  | installDecoded =>
      cases persistMu with
      | decoding number req body =>
          simp only [Proc.step, Proc.program]
          cases codec.decodeBody body with
          | none => rfl
          | some data =>
              simp only
              split
              · exact Host.run_eq fun _ => ⟨rfl, rfl, rfl⟩
              · exact idle
      | _ => exact idle
  | propose command => exact Host.run_eq fun _ => ⟨rfl, rfl, rfl⟩
  | startElection => exact Host.run_eq fun _ => ⟨rfl, rfl, rfl⟩
  | becomeLeader term => exact Host.run_eq fun _ => ⟨rfl, rfl, rfl⟩
  | stepDown term leaderID => exact Host.run_eq fun _ => ⟨rfl, rfl, rfl⟩
  | replicateReply peer req resp => exact Host.run_eq fun _ => ⟨rfl, rfl, rfl⟩
  | snapshotReply term resp => exact Host.run_eq fun _ => ⟨rfl, rfl, rfl⟩
  | applyNext =>
      cases applyMu with
      | free =>
          simp only [Proc.step, Proc.program]
          generalize node.applyNext = outcome
          rcases outcome with ⟨next, _ | entry⟩ <;> rfl
      | _ => exact idle
  | applyEntry =>
      cases applyMu with
      | applying entry => rfl
      | _ => exact idle
  | applyDone =>
      cases applyMu with
      | applied entry result => rfl
      | _ => exact idle
  | persistCheck position =>
      cases persistMu with
      | free =>
          simp only [Proc.step, Proc.program]
          cases captured[position]? with
          | none => exact idle
          | some snapshot =>
              simp only
              split <;> rfl
      | _ => exact idle
  | persistSave =>
      cases persistMu with
      | checked snapshot => exact Host.run_eq fun _ => ⟨rfl, rfl, rfl⟩
      | _ => exact idle
  | persistEnd =>
      cases persistMu with
      | saved snapshot => exact Host.run_eq fun _ => ⟨rfl, rfl, rfl⟩
      | _ => exact idle
  | restart => exact idle
  | _ => rfl

/-- The process that is left is down, or its storage has failed, or the WAL is intact. -/
def Proc.Kept (left : Option Proc × Nat × Output) (intact : Bool) : Prop :=
  ∀ q, left.1 = some q → intact = false → q.node.storageFatal = true

theorem Node.Tidy.program {α : Type} {program : Program StoreOp α} {memory : α → Node}
    {intact : Bool} (tidy : Node.Tidy intact program memory) {left : α → Option Proc × Nat × Output}
    (same : ∀ value q, (left value).1 = some q → q.node = memory value) :
    (left <$> program).Careful StoreOp.appends Proc.Kept intact := by
  apply Careful.map
  apply Careful.mono tidy
  intro value intact failed q alive lost
  rw [same value q alive]
  exact failed lost

theorem Proc.silent_careful {n : Node} {proc : Proc}
    (fatal : proc.node.storageFatal = n.storageFatal) (chans : Nat) (output : Output) :
    (ret (some proc, chans, output) : Program StoreOp (Option Proc × Nat × Output)).Careful
      StoreOp.appends Proc.Kept (!n.storageFatal) := by
  intro q alive failed
  cases alive
  rw [fatal]
  simpa using failed

theorem Proc.program_careful {cfg : Config} {codec : SnapshotCodec} {proc : Proc}
    (fallen : proc.node.Fallen) (chans : Nat) (action : Action) :
    (proc.program cfg codec chans action).Careful StoreOp.appends Proc.Kept
    (!proc.node.storageFatal) := by
  have sections : Node.Sections _ cfg chans proc.node action :=
    Node.tidy_sections action chans fallen
  have idle := Proc.silent_careful (n := proc.node) (Eq.refl proc.node.storageFatal) chans .nothing
  rcases proc with ⟨node, applyMu, persistMu, captured⟩
  cases action with
  | requestVote req =>
      apply (sections.requestVote req rfl).program
      intro value q alive
      cases alive
      rfl
  | appendEntries req =>
      apply (sections.appendEntries req rfl).program
      intro value q alive
      cases alive
      rfl
  | installSnapshot number req =>
      cases persistMu with
      | free =>
          apply (sections.installSnapshot number req rfl).program
          rintro ⟨m, progress⟩ q alive
          cases progress <;> cases alive <;> rfl
      | _ => exact idle
  | installDecoded =>
      cases persistMu with
      | decoding number req body =>
          simp only [Proc.program]
          cases codec.decodeBody body with
          | none => exact Proc.silent_careful rfl chans _
          | some data =>
              simp only
              split
              · apply (sections.installDecoded req body data rfl).program
                intro value q alive
                cases alive
                rfl
              · exact idle
      | _ => exact idle
  | propose command =>
      apply (sections.propose command rfl).program
      intro value q alive
      cases alive
      rfl
  | cancel index chan =>
      simp only [Proc.program]
      exact Proc.silent_careful rfl chans _
  | startElection =>
      apply (sections.startElection rfl).program
      intro value q alive
      cases alive
      rfl
  | becomeLeader term =>
      apply (sections.becomeLeader term rfl).program
      intro value q alive
      cases alive
      rfl
  | stepDown term leaderID =>
      apply (sections.stepDown term leaderID rfl).program
      intro value q alive
      cases alive
      rfl
  | replicate peer =>
      simp only [Proc.program]
      exact Proc.silent_careful (Node.akin_replicate peer).fatal chans _
  | replicateReply peer req resp =>
      apply (sections.replicateReply peer req resp rfl).program
      intro value q alive
      cases alive
      rfl
  | snapshotReply term resp =>
      apply (sections.snapshotReply term resp rfl).program
      intro value q alive
      cases alive
      rfl
  | snapshotSent peer term snapIdx =>
      simp only [Proc.program]
      exact Proc.silent_careful (Node.akin_snapshotSent peer term snapIdx).fatal chans _
  | applyNext =>
      cases applyMu with
      | free =>
          have applied : node.applyNext.1.storageFatal = node.storageFatal :=
            Node.akin_applyNext.fatal
          simp only [Proc.program]
          generalize node.applyNext = outcome at applied ⊢
          rcases outcome with ⟨next, _ | entry⟩
          · exact Proc.silent_careful applied chans _
          · exact Proc.silent_careful applied chans _
      | _ => exact idle
  | applyEntry =>
      cases applyMu with
      | applying entry =>
          simp only [Proc.program]
          exact Proc.silent_careful rfl chans _
      | _ => exact idle
  | applyDone =>
      cases applyMu with
      | applied entry result =>
          simp only [Proc.program]
          exact Proc.silent_careful (Node.akin_applyDone entry result).fatal chans _
      | _ => exact idle
  | persistCheck position =>
      cases persistMu with
      | free =>
          simp only [Proc.program]
          cases captured[position]? with
          | none => exact idle
          | some snapshot =>
              simp only
              split
              · exact Proc.silent_careful rfl chans _
              · exact Proc.silent_careful rfl chans _
      | _ => exact idle
  | persistSave =>
      cases persistMu with
      | checked snapshot =>
          apply (sections.persistSave snapshot rfl).program
          intro value q alive
          cases alive
          rfl
      | _ => exact idle
  | persistEnd =>
      cases persistMu with
      | saved snapshot =>
          apply (sections.persistEnd snapshot rfl).program
          intro value q alive
          cases alive
          rfl
      | _ => exact idle
  | stop =>
      simp only [Proc.program]
      exact Proc.silent_careful Node.akin_stop.fatal chans _
  | crash =>
      intro q alive
      cases alive
  | restart => exact idle

/-! ### Starting from the files -/

/-- The rest of `NewNode`, once `load` has told what there is. -/
def Node.startFrom (codec : FileCodec) (dir : Directory)
    (load : Program LoadOp (Except FileError (HardState × List LogEntry × Snapshot)))
    (fates : List Fate) :
    Outcome (Option Node) Directory :=
  match load.exec (loadDevice codec.toLineCodec) dir.files fates with
  | .crashed files => .crashed { dir with files := files }
  | .done (.error _) files => .done none { dir with files := files }
  | .done (.ok (hs, entries, snap)) files =>
      (Node.newNode ⟨hs, entries, snap.withHistory dir.history, false⟩).exec (fileDevice codec)
        { dir with files := files } (fates.drop (load.trace fates).length)

/-- `NewNode` on a data directory; `none` stands for a returned error. -/
def Node.newNodeOn (codec : FileCodec) (dir : Directory) (fates : List Fate) :
    Outcome (Option Node) Directory :=
  Node.startFrom codec dir (dir.files.load codec.toLineCodec) fates

section Start

variable {codec : FileCodec} {dir : Directory} {disk : Disk} {intact : Bool} {fates : List Fate}

theorem Node.startFrom_nil (op : LoadOp)
    (next : Bool → Program LoadOp (Except FileError (HardState × List LogEntry × Snapshot))) :
    Node.startFrom codec dir (call op next) [] =
      Node.startFrom codec
        { dir with files := (loadDevice codec.toLineCodec).complete op dir.files } (next true)
        [] := by
  simp only [Node.startFrom, exec, List.drop_nil]

/-- What a start ends in: a machine that is still down, with files that say the same, or what
`NewNode` makes of the records. -/
def Node.Starts (codec : FileCodec) (disk : Disk) (fates : List Fate)
    (outcome : Outcome (Option Node) Directory) :
    Prop :=
  (∃ left, Shows codec false left disk ∧ (outcome = .crashed left ∨ outcome = .done none left)) ∨
  ∃ loaded echo, disk.load = .ok loaded ∧ Echoes fates echo ∧
    Outcome.Matches (Shows codec) (fun node intact => node.isSome = true → intact = true) outcome
      ((Node.newNode loaded).exec store disk echo)

theorem Node.Starts.skip {outcome : Outcome (Option Node) Directory} {fate : Fate}
    (starts : Node.Starts codec disk fates outcome) :
    Node.Starts codec disk (fate :: fates) outcome := by
  rcases starts with down | ⟨loaded, echo, loads, echoes, outcome⟩
  · exact Or.inl down
  · exact Or.inr ⟨loaded, echo, loads, echoes.skip, outcome⟩

theorem Node.startFrom_ok (shows : Shows codec true dir disk) (hs : HardState)
    (entries : List LogEntry) (fates : List Fate) :
    ∃ echo, Echoes fates echo ∧
      Outcome.Matches (Shows codec) (fun node intact => node.isSome = true → intact = true)
        (Node.startFrom codec dir (ret (.ok (hs, entries, (disk.snapshot.getD {}).withHistory [])))
        fates)
      ((Node.newNode ⟨hs, entries, disk.snapshot.getD {}, false⟩).exec store disk echo) := by
  have ghost : ((disk.snapshot.getD {}).withHistory []).withHistory dir.history =
      disk.snapshot.getD {} := by
    rw [shows.ghost]
    rfl
  have started : Node.startFrom codec dir
      (ret (.ok (hs, entries, (disk.snapshot.getD {}).withHistory []))) fates =
      (Node.newNode ⟨hs, entries, ((disk.snapshot.getD {}).withHistory []).withHistory dir.history,
      false⟩).exec
        (fileDevice codec) dir fates := rfl
  rw [started, ghost]
  apply (fileDevice_mirror codec).exec _ shows fates
  exact Does.careful ((Node.newNode_replaces _).mono fun _ _ _ => rfl)

theorem Node.newNode_rewrite (hs : HardState) (entries : List LogEntry) (snap : Snapshot) :
    newNode ⟨hs, entries, snap, true⟩ =
      call (.rewriteWAL snap.lastIncludedIndex snap.lastIncludedTerm entries)
      fun rewritten => if rewritten then newNode ⟨hs, entries, snap, false⟩ else ret none := by
  simp only [newNode, if_true, perform_bind]
  congr
  funext rewritten
  cases rewritten <;> rfl

theorem Node.startFrom_rewrite (shows : Shows codec true dir disk) {hs : HardState}
    {entries : List LogEntry} (loads : disk.load = .ok ⟨hs, entries, disk.snapshot.getD {}, true⟩)
    (fates : List Fate) :
    Node.Starts codec disk fates (Node.startFrom codec dir
      (call (.writeWALAtomic (disk.snapshot.getD {}).lastIncludedIndex
        (disk.snapshot.getD {}).lastIncludedTerm entries)
        fun written => if written then ret
          (.ok (hs, entries, (disk.snapshot.getD {}).withHistory []))
          else ret (.error .io)) fates) := by
  have renewed := shows.written (walImage (disk.snapshot.getD {}).lastIncludedIndex
    (disk.snapshot.getD {}).lastIncludedTerm entries) true
  have torn (reached : Nat) : ∃ other, Shows codec false
      { dir with
        files := (loadDevice codec.toLineCodec).torn
          (.writeWALAtomic (disk.snapshot.getD {}).lastIncludedIndex
            (disk.snapshot.getD {}).lastIncludedTerm entries) reached dir.files }
      (store.torn (.rewriteWAL (disk.snapshot.getD {}).lastIncludedIndex
        (disk.snapshot.getD {}).lastIncludedTerm entries) other disk) := by
    cases reached with
    | zero => exact ⟨0, shows.weaken⟩
    | succ reached => exact ⟨1, renewed.weaken⟩
  have rest (fates : List Fate) := Node.startFrom_ok renewed hs entries fates
  refine Or.inr ⟨⟨hs, entries, disk.snapshot.getD {}, true⟩, ?_⟩
  rw [Node.newNode_rewrite]
  cases fates with
  | nil =>
      rcases rest [] with ⟨echo, echoes, outcome⟩
      obtain rfl := echoes.of_nil
      refine ⟨[], loads, echoes, ?_⟩
      rw [Node.startFrom_nil]
      exact outcome
  | cons fate fates =>
      cases fate with
      | ok =>
          rcases rest fates with ⟨echo, echoes, outcome⟩
          exact ⟨.ok :: echo, loads, echoes.cons .ok, outcome⟩
      | err reached =>
          rcases torn reached with ⟨other, shown⟩
          exact ⟨[.err other], loads, Echoes.nil.cons (.err reached other), .done false nofun shown⟩
      | crash reached =>
          rcases torn reached with ⟨other, shown⟩
          exact ⟨[.crash other], loads, Echoes.nil.cons (.crash reached other), .crashed shown⟩

theorem Node.startFrom_whole (shows : Shows codec true dir disk) {data : WalData}
    (read : readWAL disk.wal = .ok data) (fates : List Fate) :
    Node.Starts codec disk fates (Node.startFrom codec dir
      (reconcile (disk.hardState.getD {}) (disk.plain.snapshot.getD {}) data) fates) := by
  rw [disk.plain_snapshot]
  -- Nothing to rewrite: `NewNode` goes on with what has been read.
  have accepted (entries : List LogEntry)
      (loads : disk.load = .ok ⟨disk.hardState.getD {}, entries, disk.snapshot.getD {}, false⟩) :
      Node.Starts codec disk fates (Node.startFrom codec dir
        (ret (.ok (disk.hardState.getD {}, entries, (disk.snapshot.getD {}).withHistory [])))
        fates) := by
    rcases Node.startFrom_ok shows (disk.hardState.getD {}) entries fates with
      ⟨echo, echoes, outcome⟩
    exact Or.inr ⟨_, echo, loads, echoes, outcome⟩
  simp only [reconcile]
  split
  · rename_i positive
    change 0 < (disk.snapshot.getD {}).lastIncludedIndex at positive
    have loads : disk.load =
        .ok ⟨disk.hardState.getD {}, (reconcileWALWithSnapshot data (disk.snapshot.getD {})).1,
          disk.snapshot.getD {}, (reconcileWALWithSnapshot data (disk.snapshot.getD {})).2⟩ := by
      simp only [Disk.load, read, if_pos positive]
    have same : reconcileWALWithSnapshot data ((disk.snapshot.getD {}).withHistory []) =
        reconcileWALWithSnapshot data (disk.snapshot.getD {}) := rfl
    rw [same]
    generalize reconcileWALWithSnapshot data (disk.snapshot.getD {}) = reconciled at loads ⊢
    rcases reconciled with ⟨entries, _ | _⟩
    · exact accepted entries loads
    · exact Node.startFrom_rewrite shows loads fates
  · rename_i zero
    change ¬ 0 < (disk.snapshot.getD {}).lastIncludedIndex at zero
    split
    · exact Or.inl ⟨dir, shows.weaken, Or.inr rfl⟩
    · rename_i unbased
      apply accepted
      simp only [Disk.load, read, if_neg zero, if_neg unbased]

theorem Node.newNodeOn_starts (shows : Shows codec intact dir disk) (fates : List Fate) :
    Node.Starts codec disk fates (Node.newNodeOn codec dir fates) := by
  cases read : readWAL disk.wal with
  | error error =>
      rcases shows.view.load_refused read with ⟨failure, refused⟩
      refine Or.inl ⟨dir, shows.weaken, Or.inr ?_⟩
      rw [Node.newNodeOn, refused]
      rfl
  | ok data =>
      have hardState : disk.plain.hardState = disk.hardState := rfl
      rw [Node.newNodeOn, shows.view.load_eq read, hardState]
      split
      · rename_i whole
        have settled : Shows codec true dir disk :=
          ⟨shows.view, shows.ghost, shows.solid, fun _ => whole⟩
        exact Node.startFrom_whole settled read fates
      · have trimmed := shows.trimmed
        rw [trimmed_cut] at trimmed
        have torn (reached : Nat) : Shows codec false
            { dir with
              files := (loadDevice codec.toLineCodec).torn
                (.truncate ((dir.files.wal.getD []).length -
                  (splitLines newline (dir.files.wal.getD [])).2.length)) reached dir.files }
            disk := by
          cases reached with
          | zero => exact shows.weaken
          | succ reached => exact shows.cut reached
        cases fates with
        | nil =>
            rw [Node.startFrom_nil]
            exact Node.startFrom_whole trimmed read []
        | cons fate fates =>
            cases fate with
            | ok => exact (Node.startFrom_whole trimmed read fates).skip
            | err reached => exact Or.inl ⟨_, torn reached, Or.inr rfl⟩
            | crash reached => exact Or.inl ⟨_, torn reached, Or.inl rfl⟩

end Start

/-! ### Machines on bytes -/

def Host.bare (host : Host) : Host := { host with disk := {} }

/-- Nothing but a failed storage, or no process at all, excuses an unfinished line. -/
def Host.intact (host : Host) : Bool :=
  match host.proc with
  | some proc => !proc.node.storageFatal
  | none => false

def Host.resumeOn (host : Host) :
    Outcome (Option Proc × Nat × Output) Directory → Host × Directory × Output
  | .done (proc, chans, output) dir => ({ host with proc := proc, chans := chans }, dir, output)
  | .crashed dir => ({ host with proc := none }, dir, .nothing)

def Host.startedOn (host : Host) : Outcome (Option Node) Directory → Host × Directory × Output
  | .done node dir => ({ host with proc := node.map fun node => { node := node } }, dir, .nothing)
  | .crashed dir => ({ host with proc := none }, dir, .nothing)

/-- One event of a machine with the data directory `dir`; the records of `host` are not used. -/
def Host.stepOn (cfg : Config) (codec : SnapshotCodec) (files : FileCodec) (host : Host)
    (dir : Directory) (fates : List Fate) (action : Action) : Host × Directory × Output :=
  match host.proc with
  | some proc =>
      host.resumeOn ((proc.program cfg codec host.chans action).exec (fileDevice files) dir fates)
  | none =>
      match action with
      | .restart => host.startedOn (Node.newNodeOn files dir fates)
      | _ => (host, dir, .nothing)

/-- What happens on the bytes happens on the records: the same section, with calls that end
likewise. A start that ends before anything has been read is no event for the records, on which a
machine that is down crashes again. -/
theorem Host.stepOn_follows (cfg : Config) (codec : SnapshotCodec) {files : FileCodec} {host : Host}
    {dir : Directory} (fallen : host.Fallen) (shows : Shows files host.intact dir host.disk)
    (fates : List Fate) (action : Action) :
    ∃ echo taken left, Echoes fates echo ∧
      (taken = action ∨ action = .restart ∧ taken = .crash ∧ echo = [] ∧ host.proc = none) ∧
      host.bare.stepOn cfg codec files dir fates action =
        ((host.step cfg codec echo taken).1.bare, left, (host.step cfg codec echo taken).2) ∧
      Shows files (host.step cfg codec echo taken).1.intact left
        (host.step cfg codec echo taken).1.disk := by
  rcases host with ⟨disk, _ | proc, chans⟩
  · -- The machine is down.
    by_cases starting : action = .restart
    · subst starting
      have starts := Node.newNodeOn_starts shows fates
      have below : (Host.mk disk none chans).bare.stepOn cfg codec files dir fates .restart =
          (Host.mk {} none chans).startedOn (Node.newNodeOn files dir fates) := rfl
      rw [below]
      rcases starts with ⟨left, shown, crashed | failed⟩ | ⟨loaded, echo, loads, echoes, outcome⟩
      · rw [crashed]
        exact ⟨[], .crash, left, Echoes.nil, Or.inr ⟨rfl, rfl, rfl, rfl⟩, rfl, shown⟩
      · rw [failed]
        exact ⟨[], .crash, left, Echoes.nil, Or.inr ⟨rfl, rfl, rfl, rfl⟩, rfl, shown⟩
      · have sound := Node.newNode_sound loaded
        have stepped : (Host.mk disk none chans).step cfg codec echo .restart =
            (Host.mk disk none chans).run (Node.newNode loaded) echo fun node =>
              ({ Host.mk disk none chans with proc := node.map fun node => { node := node } },
                .nothing) := by
          simp only [Host.step, loads]
        refine ⟨echo, .restart, ?_⟩
        rw [stepped, Host.run]
        generalize ended : (Node.newNode loaded).exec store disk echo = model at outcome
        generalize Node.newNodeOn files dir fates = bytes at outcome ⊢
        cases outcome with
        | @done node left records intact holds same =>
            refine ⟨left, echoes, Or.inl rfl, rfl, ?_⟩
            cases node with
            | none => exact same.weaken
            | some node =>
                have unhurt : node.storageFatal = false := sound.exec ended node rfl
                obtain rfl : intact = true := holds rfl
                simp only [Host.intact, Option.map_some, unhurt, Bool.not_false]
                exact same
        | @crashed left records same => exact ⟨left, echoes, Or.inl rfl, rfl, same⟩
    · refine ⟨[], action, dir, Echoes.nil, Or.inl rfl, ?_⟩
      cases action with
      | restart => exact absurd rfl starting
      | _ => exact ⟨rfl, shows⟩
  · have careful : (proc.program cfg codec chans action).Careful StoreOp.appends Proc.Kept
        (!proc.node.storageFatal) :=
      Proc.program_careful (fallen proc rfl) chans action
    rcases (fileDevice_mirror files).exec careful shows fates with ⟨echo, echoes, outcome⟩
    have stepped : (Host.mk disk (some proc) chans).step cfg codec echo action =
        proc.step cfg codec ⟨disk, some proc, chans⟩ echo action := rfl
    refine ⟨echo, action, ?_⟩
    rw [stepped, Proc.step_eq rfl]
    have below : (Host.mk disk (some proc) chans).bare.stepOn cfg codec files dir fates action =
        (Host.mk {} (some proc) chans).resumeOn
          ((proc.program cfg codec chans action).exec (fileDevice files) dir fates) := rfl
    rw [below]
    generalize (proc.program cfg codec chans action).exec store disk echo = model at outcome ⊢
    generalize (proc.program cfg codec chans action).exec (fileDevice files) dir fates =
      bytes at outcome ⊢
    cases outcome with
    | @done value left records intact holds same =>
        rcases value with ⟨_ | next, count, output⟩
        · exact ⟨left, echoes, Or.inl rfl, rfl, same.weaken⟩
        · refine ⟨left, echoes, Or.inl rfl, rfl, ?_⟩
          simp only [Host.resume, Host.intact]
          cases intact with
          | true =>
              cases next.node.storageFatal with
              | true => exact same.weaken
              | false => exact same
          | false =>
              rw [holds next rfl rfl]
              exact same
    | @crashed left records same => exact ⟨left, echoes, Or.inl rfl, rfl, same⟩

end GoRaftKV.Raft
