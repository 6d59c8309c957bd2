import GoRaftKV.Raft.Sections

namespace GoRaftKV.Raft

open Storage Library Program

/-- What an event with the given output does to a running process and to the number of channels
handed out. -/
inductive Proc.Move (cfg : Config) (chans : Nat) (p : Proc) (output : Output) : Nat → Proc → Prop
  | quiet (more : Nat) (m : Node) (persistMu : PersistLock) (captured : List Snapshot)
      (refused : more = chans ∨ (more = chans + 1 ∧ ∃ err, output = .proposed chans (.error err)))
      (moves : Node.Moves cfg p.node m) :
      Move cfg chans p output more { p with node := m, persistMu := persistMu,
                                            captured := captured }
  | propose (entry : LogEntry) (m : Node) (leads : p.node.role = .leader)
      (next : entry.index = p.node.lastIndexLocked + 1)
      (moves : Node.Moves cfg (p.node.accepted cfg entry chans) m)
      (accepted : output = .proposed chans (.ok entry)) :
      Move cfg chans p output (chans + 1) { p with node := m }
  | install (m : Node) (snapshot : Snapshot) (call : Nat) (req : InstallSnapshotRequest)
      (body : Bytes) (held : p.persistMu = .decoding call req body) (free : p.applyMu = .free)
      (moves : Node.Moves cfg p.node m) (follows : m.role = .follower)
      (commit : m.commitIndex = p.node.commitIndex)
      (newer : m.commitIndex < snapshot.lastIncludedIndex)
      (index : snapshot.lastIncludedIndex = req.lastIncludedIndex) :
      Move cfg chans p output chans { p with
        node := m.installed snapshot (m.logAfterSnapshotLocked snapshot) snapshot.lastIncludedIndex
        persistMu := .free }
  | compact (snapshot : Snapshot) (held : p.persistMu = .saved snapshot)
      (worth : p.node.worthPersisting snapshot = true) :
      Move cfg chans p output chans { p with node := p.node.compacted snapshot, persistMu := .free }
  | applyNext (entry : LogEntry) (free : p.applyMu = .free)
      (behind : p.node.lastApplied < p.node.commitIndex)
      (found : p.node.entryAtLocked (p.node.lastApplied + 1) = some entry) :
      Move cfg chans p output chans { p with applyMu := .applying entry }
  | applyEntry (entry : LogEntry) (applying : p.applyMu = .applying entry) :
      Move cfg chans p output chans { p with
        node := (p.node.applyEntry entry).1, applyMu := .applied entry (p.node.applyEntry entry).2 }
  | applyDone (entry : LogEntry) (result : ApplyResult) (captured : List Snapshot)
      (applied : p.applyMu = .applied entry result) (still : p.node.stillApplies entry = true) :
      Move cfg chans p output chans { p with
        node := Node.finishWaitersLocked { p.node with lastApplied := entry.index } entry.index
          result
        applyMu := .free, captured := captured }
  | applyStale (entry : LogEntry) (result : ApplyResult) (captured : List Snapshot)
      (applied : p.applyMu = .applied entry result) (stale : p.node.stillApplies entry = false) :
      Move cfg chans p output chans { p with applyMu := .free, captured := captured }

/-- The sections that can hand out such an output. -/
def Output.From (host : Host) (action : Action) : Output → Prop
  | .nothing => True
  | .vote _ => ∃ req, action = .requestVote req
  | .append _ => ∃ req, action = .appendEntries req
  | .snapshot number _ =>
      (∃ req, action = .installSnapshot number req) ∨
        ∃ p req body, host.proc = some p ∧ p.persistMu = .decoding number req body
  | .proposed _ _ => ∃ command, action = .propose command
  | .cancelled index chan _ => action = .cancel index chan
  | .campaign _ => action = .startElection
  | .dispatch peer _ => action = .replicate peer
  | .replicated peer _ =>
      (∃ req resp, action = .replicateReply peer req resp) ∨
        ∃ term snapIdx, action = .snapshotSent peer term snapIdx
  | .chunkAcked _ => ∃ term resp, action = .snapshotReply term resp

namespace Host

variable {cfg : Config} {codec : SnapshotCodec} {host : Host} {p q : Proc} {fates : List Fate}

theorem run_output {α : Type} {program : Program StoreOp α} {finish : α → Host × Output}
    {holds : Output → Prop} (silent : holds .nothing) (finished : ∀ value, holds (finish value).2) :
    holds (host.run program fates finish).2 := by
  unfold run
  split
  · exact finished _
  · exact silent

theorem step_from (action : Action) : (host.step cfg codec fates action).2.From host action := by
  unfold Host.step
  split
  · rename_i p live
    cases action with
    | requestVote req => exact run_output trivial fun _ => ⟨req, rfl⟩
    | appendEntries req => exact run_output trivial fun _ => ⟨req, rfl⟩
    | installSnapshot call req =>
        simp only [Proc.step]
        split
        · apply run_output trivial
          intro ⟨m, progress⟩
          cases progress
          · exact Or.inl ⟨req, rfl⟩
          · trivial
        · trivial
    | installDecoded =>
        simp only [Proc.step]
        split
        · rename_i call req body held
          split
          · exact Or.inr ⟨p, req, body, live, held⟩
          · split
            · exact run_output trivial fun _ => Or.inr ⟨p, req, body, live, held⟩
            · trivial
        · trivial
    | propose command => exact run_output trivial fun _ => ⟨command, rfl⟩
    | cancel index chan => rfl
    | startElection =>
        apply run_output trivial
        intro ⟨m, req⟩
        cases req
        · trivial
        · rfl
    | becomeLeader term => exact run_output trivial fun _ => trivial
    | stepDown term leaderID => exact run_output trivial fun _ => trivial
    | replicate peer => rfl
    | replicateReply peer req resp =>
        apply run_output trivial
        intro ⟨m, acked⟩
        cases acked
        · trivial
        · exact Or.inl ⟨req, resp, rfl⟩
    | snapshotReply term resp => exact run_output trivial fun _ => ⟨term, resp, rfl⟩
    | snapshotSent peer term snapIdx => exact Or.inr ⟨term, snapIdx, rfl⟩
    | applyNext =>
        simp only [Proc.step]
        split
        · split <;> trivial
        · trivial
    | applyEntry | applyDone =>
        simp only [Proc.step]
        split <;> trivial
    | persistCheck position =>
        simp only [Proc.step]
        split
        · split <;> trivial
        · trivial
    | persistSave | persistEnd =>
        simp only [Proc.step]
        split
        · exact run_output trivial fun _ => trivial
        · trivial
    | stop | crash | restart => trivial
  · split
    · exact run_output trivial fun _ => trivial
    · trivial

theorem run_done {α : Type} {program : Program StoreOp α} {finish : α → Host × Output}
    (spoken : (host.run program fates finish).2 ≠ .nothing) :
    ∃ value disk, program.exec store host.disk fates = .done value disk ∧
      host.run program fates finish = ({ (finish value).1 with disk := disk },
        (finish value).2) := by
  unfold run at spoken ⊢
  cases ending : program.exec store host.disk fates with
  | done value disk => exact ⟨value, disk, rfl, rfl⟩
  | crashed disk =>
      rw [ending] at spoken
      exact absurd rfl spoken

theorem run_alive {α : Type} {program : Program StoreOp α} {post : α → Prop}
    {finish : α → Host × Output} (every : program.All post)
    (alive : (host.run program fates finish).1.proc = some q) :
    ∃ value, post value ∧ (finish value).1.proc = some q ∧
      (host.run program fates finish).1.chans = (finish value).1.chans ∧
      (host.run program fates finish).2 = (finish value).2 := by
  unfold run at alive ⊢
  cases ending : program.exec store host.disk fates with
  | done value disk =>
      rw [ending] at alive
      exact ⟨value, every.exec ending, alive, rfl, rfl⟩
  | crashed disk =>
      rw [ending] at alive
      cases alive

theorem run_finish {α : Type} {program : Program StoreOp α} {finish : α → Host × Output}
    (alive : (host.run program fates finish).1.proc = some q) :
    ∃ value, (finish value).1.proc = some q := by
  rcases run_alive (does_any program).all alive with ⟨value, -, same, -⟩
  exact ⟨value, same⟩

theorem step_decoding {action : Action} {number : Nat} {req : InstallSnapshotRequest} {body : Bytes}
    (alive : (host.step cfg codec fates action).1.proc = some q)
    (held : q.persistMu = .decoding number req body) :
    action = .installSnapshot number req ∨
      ∃ p, host.proc = some p ∧ p.persistMu = .decoding number req body := by
  unfold Host.step at alive
  split at alive
  · rename_i p live
    have kept {lock : PersistLock} (same : lock = p.persistMu)
        (held : lock = .decoding number req body) :
        action = .installSnapshot number req ∨
          ∃ p, host.proc = some p ∧ p.persistMu = .decoding number req body :=
      Or.inr ⟨p, live, same ▸ held⟩
    have idle (same : host.proc = some q) : action = .installSnapshot number req ∨
        ∃ p, host.proc = some p ∧ p.persistMu = .decoding number req body := Or.inr ⟨q, same, held⟩
    cases action with
    | installSnapshot call other =>
        simp only [Proc.step] at alive
        split at alive
        · rename_i free
          rcases run_finish alive with ⟨⟨m, progress⟩, same⟩
          cases progress <;> cases same
          · exact kept rfl held
          · cases held
            exact Or.inl rfl
        · exact idle alive
    | installDecoded =>
        simp only [Proc.step] at alive
        split at alive
        · split at alive
          · cases alive
            cases held
          · split at alive
            · rcases run_finish alive with ⟨value, same⟩
              cases same
              cases held
            · exact idle alive
        · exact idle alive
    | requestVote _ | appendEntries _ | propose _ | startElection | becomeLeader _ | stepDown _ _
    | replicateReply _ _ _ | snapshotReply _ _ =>
        rcases run_finish alive with ⟨value, same⟩
        cases same
        exact kept rfl held
    | cancel _ _ | replicate _ | snapshotSent _ _ _ | stop =>
        cases alive
        exact kept rfl held
    | applyNext =>
        simp only [Proc.step] at alive
        split at alive
        · split at alive <;> cases alive <;> exact kept rfl held
        · exact idle alive
    | applyEntry | applyDone =>
        simp only [Proc.step] at alive
        split at alive
        · cases alive
          exact kept rfl held
        · exact idle alive
    | persistCheck position =>
        simp only [Proc.step] at alive
        split at alive
        · split at alive <;> cases alive
          · cases held
          · exact kept rfl held
        · exact idle alive
    | persistSave =>
        simp only [Proc.step] at alive
        split at alive
        · rcases run_finish alive with ⟨value, same⟩
          cases same
          cases value <;> cases held
        · exact idle alive
    | persistEnd =>
        simp only [Proc.step] at alive
        split at alive
        · rcases run_finish alive with ⟨value, same⟩
          cases same
          cases held
        · exact idle alive
    | crash => cases alive
    | restart => exact idle alive
  · rename_i down
    split at alive
    · rcases run_finish alive with ⟨value, same⟩
      simp only [Option.map_eq_some_iff] at same
      rcases same with ⟨n, -, rfl⟩
      cases held
    · rw [down] at alive
      cases alive

theorem step_decoded {action : Action} {number : Nat} {req : InstallSnapshotRequest} {body : Bytes}
    (live : host.proc = some p) (held : p.persistMu = .decoding number req body)
    (alive : (host.step cfg codec fates action).1.proc = some q) :
    action = .installDecoded ∨ q.persistMu = .decoding number req body := by
  simp only [Host.step, live] at alive
  have kept {lock : PersistLock} (same : lock = p.persistMu) :
      action = .installDecoded ∨ lock = .decoding number req body := Or.inr (same.trans held)
  have idle (same : host.proc = some q) :
      action = .installDecoded ∨ q.persistMu = .decoding number req body := by
    rw [live] at same
    cases same
    exact kept rfl
  cases action with
  | installDecoded => exact Or.inl rfl
  | installSnapshot call other =>
      simp only [Proc.step, held] at alive
      exact idle alive
  | requestVote _ | appendEntries _ | propose _ | startElection | becomeLeader _ | stepDown _ _
  | replicateReply _ _ _ | snapshotReply _ _ =>
      rcases run_finish alive with ⟨value, same⟩
      cases same
      exact kept rfl
  | cancel _ _ | replicate _ | snapshotSent _ _ _ | stop =>
      cases alive
      exact kept rfl
  | applyNext =>
      simp only [Proc.step] at alive
      split at alive
      · split at alive <;> cases alive <;> exact kept rfl
      · exact idle alive
  | applyEntry | applyDone =>
      simp only [Proc.step] at alive
      split at alive
      · cases alive
        exact kept rfl
      · exact idle alive
  | persistCheck _ | persistSave | persistEnd =>
      simp only [Proc.step, held] at alive
      exact idle alive
  | crash => cases alive
  | restart => exact idle alive

theorem run_quiet {α : Type} {program : Program StoreOp (Node × α)} (output : α → Output)
    (every : program.All fun r => Node.Moves cfg p.node r.1)
    (alive : (host.run program fates fun r => (host.withNode p r.1, output r.2)).1.proc = some q) :
    p.Move cfg host.chans (host.run program fates fun r => (host.withNode p r.1, output r.2)).2
      (host.run program fates fun r => (host.withNode p r.1, output r.2)).1.chans q := by
  obtain ⟨⟨m, value⟩, moves, same, chans, -⟩ := run_alive every alive
  rw [chans]
  cases same
  exact .quiet _ m p.persistMu p.captured (Or.inl rfl) moves

theorem move_refl (p : Proc) (chans : Nat) (output : Output) : p.Move cfg chans output chans p :=
  .quiet chans p.node p.persistMu p.captured (Or.inl rfl) .refl

theorem move_node {m : Node} (chans : Nat) (output : Output) (moves : Node.Moves cfg p.node m) :
    p.Move cfg chans output chans { p with node := m } :=
  .quiet chans m p.persistMu p.captured (Or.inl rfl) moves

/-- One event of a running process, with its requests free of stale splices. -/
theorem step_move {action : Action} (live : host.proc = some p) (wf : WellFormed p.node)
    (safe : ∀ req, action = .appendEntries req → p.node.SpliceSafe req.entries)
    (alive : (p.step cfg codec host fates action).1.proc = some q) :
    p.Move cfg host.chans (p.step cfg codec host fates action).2
      (p.step cfg codec host fates action).1.chans q := by
  have idle (output : Output) (same : host.proc = some q) :
      p.Move cfg host.chans output host.chans q := by
    rw [live] at same
    cases same
    exact move_refl p host.chans output
  cases action with
  | requestVote req => exact run_quiet .vote (Node.handleRequestVote_moves req) alive
  | appendEntries req =>
      exact run_quiet .append (Node.handleAppendEntries_moves wf (safe req rfl)) alive
  | installSnapshot call req =>
      simp only [Proc.step] at alive ⊢
      split at alive
      · obtain ⟨⟨m, progress⟩, moves, same, chans, -⟩ :=
          run_alive (Node.handleInstallSnapshot_moves req) alive
        rw [chans]
        cases progress <;> cases same
        · exact move_node _ _ moves
        · exact .quiet _ m _ p.captured (Or.inl rfl) moves
      · exact idle _ alive
  | installDecoded =>
      simp only [Proc.step] at alive ⊢
      split at alive
      · split at alive
        · cases alive
          exact .quiet _ _ .free p.captured (Or.inl rfl) Node.clearPending_moves
        · split at alive
          · rename_i call req body held _ data decoded free
            obtain ⟨⟨m, resp⟩, ending, same, chans, -⟩ :=
              run_alive (Node.installDecoded_ends req body data) alive
            rw [if_pos free, chans]
            cases same
            cases ending with
            | unchanged _ moves => exact .quiet _ m .free p.captured (Or.inl rfl) moves
            | installed k snapshot moves follows commit newer index =>
                exact .install k snapshot call req body held free moves follows commit newer index
          · rename_i busy
            rw [if_neg busy]
            exact idle _ alive
      · exact idle _ alive
  | propose command =>
      obtain ⟨⟨m, result⟩, moves, same, chans, output⟩ :=
        run_alive (Node.proposeAppend_moves command host.chans) alive
      simp only [Proc.step]
      rw [chans, output]
      cases same
      rcases moves with ⟨moves, err, rfl⟩ | ⟨leads, rfl, moves⟩
      · exact .quiet _ m p.persistMu p.captured (Or.inr ⟨rfl, err, rfl⟩) moves
      · exact .propose _ m leads rfl moves rfl
  | cancel index chan =>
      cases alive
      exact move_node _ _ (.single (.cancel p.node index chan))
  | startElection =>
      exact run_quiet .ofElection Node.startElection_moves alive
  | becomeLeader term =>
      obtain ⟨m, moves, same, chans, -⟩ := run_alive (Node.becomeLeader_moves term) alive
      simp only [Proc.step]
      rw [chans]
      cases same
      exact move_node _ _ moves
  | stepDown term leaderID =>
      exact run_quiet (fun _ => .nothing) (Node.stepDown_moves term leaderID) alive
  | replicate peer =>
      cases alive
      exact move_node _ _ (Node.replicateToPeer_moves peer)
  | replicateReply peer req resp =>
      exact run_quiet (.ofAttempt peer) (Node.replicateReply_moves peer req resp) alive
  | snapshotReply term resp =>
      exact run_quiet (fun leads => .chunkAcked (leads && resp.success))
        (Node.sendSnapshotReply_moves term resp) alive
  | snapshotSent peer term snapIdx =>
      cases alive
      exact move_node _ _ (Node.snapshotSent_moves peer term snapIdx)
  | applyNext =>
      simp only [Proc.step, Node.applyNext_eq wf] at alive ⊢
      split at alive
      · rename_i free
        split at alive
        · rename_i m none
          simp only [Prod.mk.injEq] at none
          obtain ⟨rfl, -⟩ := none
          cases alive
          exact move_refl p _ _
        · rename_i m entry found
          simp only [Prod.mk.injEq] at found
          obtain ⟨rfl, found⟩ := found
          cases alive
          split at found
          · cases found
          · rename_i behind
            exact .applyNext entry free (Nat.lt_of_not_le behind) found
      · exact idle _ alive
  | applyEntry =>
      simp only [Proc.step] at alive ⊢
      split at alive
      · rename_i entry applying
        cases alive
        exact .applyEntry entry applying
      · exact idle _ alive
  | applyDone =>
      simp only [Proc.step] at alive ⊢
      split at alive
      · rename_i entry result applied
        cases alive
        rw [Node.applyDone_eq]
        cases still : p.node.stillApplies entry with
        | true => exact .applyDone entry result _ applied still
        | false => exact .applyStale entry result _ applied still
      · exact idle _ alive
  | persistCheck position =>
      simp only [Proc.step] at alive ⊢
      split at alive
      · split at alive
        · rename_i worth
          rw [if_pos worth]
          cases alive
          exact .quiet _ p.node _ _ (Or.inl rfl) .refl
        · rename_i worth
          rw [if_neg worth]
          cases alive
          exact .quiet _ p.node _ _ (Or.inl rfl) .refl
      · exact idle _ alive
  | persistSave =>
      simp only [Proc.step] at alive ⊢
      split at alive
      · rename_i snapshot checked
        have every : (perform (StoreOp.saveSnapshot snapshot)).All fun _ => True := fun _ => trivial
        obtain ⟨saved, -, same, chans, -⟩ := run_alive every alive
        rw [chans]
        cases same
        exact .quiet _ p.node _ p.captured (Or.inl rfl) .refl
      · exact idle _ alive
  | persistEnd =>
      simp only [Proc.step] at alive ⊢
      split at alive
      · rename_i snapshot saved
        obtain ⟨m, ending, same, chans, -⟩ := run_alive (Node.compact_ends snapshot) alive
        rw [chans, ← Option.some.inj same]
        rcases ending with rfl | ⟨worth, rfl⟩
        · exact .quiet _ p.node .free p.captured (Or.inl rfl) .refl
        · exact .compact snapshot saved worth
      · exact idle _ alive
  | stop =>
      cases alive
      exact move_node _ _ (.single (.stop p.node))
  | crash => cases alive
  | restart => exact idle _ alive

end Host

end GoRaftKV.Raft
