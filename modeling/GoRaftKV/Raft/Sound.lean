import GoRaftKV.Raft.ClusterSteps
import GoRaftKV.Raft.HostRuns
import GoRaftKV.Storage.Recovery

namespace GoRaftKV.Raft

open Storage Library Program

namespace Host

variable {cfg : Config} {codec : SnapshotCodec} {host : Host} {fates : List Fate} {q : Proc}

theorem run_based {α : Type} {program : Program StoreOp α} {finish : α → Host × Output}
    (based : host.disk.Based) : (host.run program fates finish).1.disk.Based := by
  have kept : (program.exec store host.disk fates).Meets (fun _ disk => True ∧ disk.Based)
      Disk.Based :=
    (does_any program).exec (fun op _ _ earlier => earlier.complete op)
      (fun op reached _ _ earlier => earlier.torn op reached) based fates
  unfold run
  cases ending : program.exec store host.disk fates with
  | done value disk =>
      rw [ending] at kept
      exact kept.2
  | crashed disk =>
      rw [ending] at kept
      exact kept

theorem step_based (action : Action) (based : host.disk.Based) :
    (host.step cfg codec fates action).1.disk.Based := by
  unfold Host.step
  split
  · rename_i p live
    cases action with
    | requestVote | appendEntries | propose | startElection | becomeLeader | stepDown
    | replicateReply | snapshotReply => exact run_based based
    | installSnapshot | persistSave | persistEnd =>
        simp only [Proc.step]
        split
        · exact run_based based
        · exact based
    | installDecoded =>
        simp only [Proc.step]
        split
        · split
          · exact based
          split
          · exact run_based based
          · exact based
        · exact based
    | cancel | replicate | snapshotSent | stop | crash | restart => exact based
    | applyNext | persistCheck =>
        simp only [Proc.step]
        split
        · split <;> exact based
        · exact based
    | applyEntry | applyDone =>
        simp only [Proc.step]
        split <;> exact based
  · split
    · exact run_based based
    · exact based

/-- A process has moved, or `NewNode` has just built it from what `Load` returned. -/
def Origin (cfg : Config) (host : Host) (after : Host × Output) (q : Proc) : Prop :=
  (∃ p, host.proc = some p ∧ p.Move cfg host.chans after.2 after.1.chans q) ∨
    ∃ loaded, host.disk.load = .ok loaded ∧ q = { node := Node.restored loaded } ∧
      after.1.chans = host.chans

theorem step_origin {action : Action} (wf : ∀ p, host.proc = some p → WellFormed p.node)
    (safe : ∀ p req, host.proc = some p → action = .appendEntries req →
      p.node.SpliceSafe req.entries)
    (alive : (host.step cfg codec fates action).1.proc = some q) :
    host.Origin cfg (host.step cfg codec fates action) q := by
  cases live : host.proc with
  | some p =>
      have running : host.step cfg codec fates action = p.step cfg codec host fates action := by
        unfold Host.step
        rw [live]
      rw [running] at alive ⊢
      exact Or.inl ⟨p, live,
        step_move live (wf p live) (fun req same => safe p req live same) alive⟩
  | none =>
      by_cases restarts : action = .restart
      · subst restarts
        cases loads : host.disk.load with
        | error error =>
            simp only [Host.step, live, loads] at alive
            cases alive
        | ok loaded =>
            simp only [Host.step, live, loads] at alive ⊢
            rcases run_alive (Node.newNode_does loaded).all alive with
              ⟨result, restored, same, chans, -⟩
            simp only [Option.map_eq_some_iff] at same
            rcases same with ⟨n, present, rfl⟩
            rw [restored n present]
            exact Or.inr ⟨loaded, loads, rfl, chans⟩
      · rw [step_down live restarts] at alive
        cases live.symm.trans alive

theorem Origin.wellFormed {after : Host × Output} (origin : host.Origin cfg after q)
    (based : host.disk.Based) (wf : ∀ p, host.proc = some p → WellFormed p.node) :
    WellFormed q.node := by
  rcases origin with ⟨p, live, move⟩ | ⟨loaded, loads, rfl, -⟩
  · exact (move.upholds (wf p live)).wellFormed
  · exact restored_wellFormed (based.load loads)

end Host

/-- Every request to append carries entries that follow one another. -/
def ordering : Ledger where
  call call := ∀ req, call.request = .append req → Contiguous req.prevLogIndex req.entries
  reply _ _ := True
  campaign _ := True
  stream _ := True

theorem Node.Dispatch.From.contiguous {n : Node} {cfg : Config} {req : AppendEntriesRequest}
    (sent : Dispatch.From n cfg (.append req)) (wf : WellFormed n) :
    Contiguous req.prevLogIndex req.entries := by
  rcases sent with ⟨-, after, -, request⟩
  have rest := wf.contiguous.drop (req.prevLogIndex - n.snapshot.lastIncludedIndex)
  rw [Nat.add_sub_cancel' after] at rest
  rw [request]
  simp only [Node.entriesFromLocked]
  rw [wf.contiguous.filter_le (Nat.lt_succ_of_le after)]
  have same : req.prevLogIndex + 1 - n.snapshot.lastIncludedIndex - 1 =
      req.prevLogIndex - n.snapshot.lastIncludedIndex := by omega
  rw [same]
  exact rest

theorem Host.step_dispatch {cfg : Config} {codec : SnapshotCodec} {host : Host} {fates : List Fate}
    {action : Action} {peer : NodeId} {dispatch : Node.Dispatch}
    (output : (host.step cfg codec fates action).2 = .dispatch peer dispatch) :
    ∃ p, host.proc = some p ∧ action = .replicate peer ∧ dispatch.From p.node cfg := by
  have origin : (host.step cfg codec fates action).2.From host action := step_from action
  rw [output] at origin
  cases origin
  unfold Host.step at output
  split at output
  · rename_i p live
    simp only [Proc.step, Output.dispatch.injEq, true_and] at output
    have sent := (Node.replicateToPeer_eq p.node cfg peer).2
    rw [output] at sent
    exact ⟨p, live, rfl, sent⟩
  · simp only at output
    cases output

namespace Cluster

variable {setting : Setting} {allowed : Cluster → Event → Prop} {w next : Cluster} {event : Event}
  {task : Task}

/-- What holds whichever store calls fail: logs continue their snapshots, in memory, on the wire and
after a restart. -/
structure Sound (w : Cluster) : Prop where
  filed : w.Filed
  wellFormed : ∀ id p, (w.hosts id).proc = some p → WellFormed p.node
  based : ∀ id, (w.hosts id).disk.Based
  ledger : ordering.Holds w

theorem Sound.spliceSafe (sound : w.Sound) (asked : w.Asked setting task) (n : Node)
    {req : AppendEntriesRequest} (action : task.action = .appendEntries req) :
    n.SpliceSafe req.entries := by
  simp only [Asked, action] at asked
  rcases asked with ⟨sender, issued, found⟩
  have ordered := sound.ledger.calls _ (List.mem_of_getElem? found) req rfl
  exact Node.spliceSafe_of_contiguous _ ordered

theorem Sound.origin (sound : w.Sound) (asked : w.Asked setting task) {q : Proc}
    (alive : (w.outcome setting task).1.proc = some q) :
    (w.hosts task.node).Origin (setting.config task.node) (w.outcome setting task) q := by
  apply Host.step_origin (sound.wellFormed task.node) _ alive
  intro p req _ action
  exact sound.spliceSafe asked p.node action

theorem Sound.step (sound : w.Sound) (taken : w.step setting event = some next) : next.Sound where
  filed := sound.filed.step taken
  wellFormed := by
    intro id q alive
    rcases step_host taken id with same | ⟨task, ran, rfl, -, stepped⟩
    · rw [same] at alive
      exact sound.wellFormed id q alive
    · rw [stepped] at alive
      exact (sound.origin (server_asked ran) alive).wellFormed (sound.based task.node)
        (sound.wellFormed task.node)
  based := by
    intro id
    rcases step_host taken id with same | ⟨task, ran, rfl, -, stepped⟩
    · rw [same]
      exact sound.based id
    · rw [stepped]
      exact Host.step_based task.action (sound.based task.node)
  ledger := by
    apply sound.ledger.step taken
    · intro task ran _
      refine ⟨?_, fun _ _ => trivial, ?_, fun _ _ _ _ _ => trivial⟩
      · intro number resp output
        rcases sound.filed.replied (server_asked ran) output with ⟨call, found, -⟩
        exact ⟨call, found, trivial⟩
      · intro peer req issued output other same
        cases same
        rcases Host.step_dispatch output with ⟨p, live, -, sent⟩
        exact sent.contiguous (sound.wellFormed task.node p live)
    · intro campaign peer issued _ _ req same
      cases same
    · intro stream offset issued _ _ req same
      cases same

theorem sound_initial : initial.Sound where
  filed := by
    intro id p number req body live
    cases live
  wellFormed := by
    intro id p live
    cases live
  based := by
    intro id record first
    cases first
  ledger := ⟨by simp [initial], by simp [initial], by simp [initial], by simp [initial]⟩

theorem sound_of_run (run : Run setting allowed initial w) : w.Sound := by
  induction run with
  | refl => exact sound_initial
  | tail _ step ih =>
      rcases step with ⟨event, next, -, taken⟩
      exact ih.step taken

end Cluster

end GoRaftKV.Raft
