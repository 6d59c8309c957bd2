import GoRaftKV.Library.Timeline
import GoRaftKV.Raft.Agreement

/-! What the answers that `ensureQuorum` counts say about the terms of the peers: a peer that has
acknowledged a request was not beyond the request's term when the request was issued. -/

namespace GoRaftKV.Raft

open Storage Library Program

namespace Node

variable {cfg : Config} {n : Node}

theorem steppedDown_term {term : Nat} (bound : n.currentTerm ≤ term) (leaderID : NodeId) :
    (n.steppedDown cfg term leaderID).currentTerm = term := by
  rw [(steppedDown_fields n cfg term leaderID).2.1, max_eq_right bound]

theorem commitTo_term (newCommit : Nat) :
    (n.commitTo newCommit).All fun r => r.1.currentTerm = n.currentTerm := by
  unfold commitTo
  split
  · simp only [persistHardStateLocked, saveHardStateLocked, perform_bind, all_call]
    exact ⟨rfl, rfl⟩
  · rfl

theorem spliceEntries_term (req : AppendEntriesRequest) :
    (n.spliceEntries cfg req).All fun r => r.1.currentTerm = n.currentTerm := by
  rcases mergeEntriesLocked_memory (n := n) req.prevLogIndex req.entries with ⟨log, memory⟩
  unfold spliceEntries
  generalize n.mergeEntriesLocked req.prevLogIndex req.entries = outcome at memory ⊢
  rcases outcome with ⟨merged, merge⟩
  simp only at memory ⊢
  subst memory
  have committed :=
    commitTo_term (n := { n with log := log }) (min req.leaderCommit merge.lastNewIndex)
  split
  · rfl
  split
  · simp only [perform_bind, all_call, if_true]
    exact ⟨committed, rfl⟩
  · exact committed

theorem matchEntries_term (req : AppendEntriesRequest) :
    (n.matchEntries cfg req).All fun r => r.1.currentTerm = n.currentTerm := by
  unfold matchEntries
  simp only
  split
  · rfl
  split
  · rfl
  · exact spliceEntries_term (n := { n with leaderID := req.leaderID }) req

theorem handleAppendEntries_heeds (req : AppendEntriesRequest) :
    (n.handleAppendEntries cfg req).All fun r => r.2.success = true →
      r.1.currentTerm = req.term := by
  unfold handleAppendEntries
  simp only
  split
  · rintro ⟨⟩
  split
  · rintro ⟨⟩
  split
  · rintro ⟨⟩
  rename_i current
  push Not at current
  split
  · refine All.bind (becomeFollowerLocked_all ?_ ?_)
    · exact (matchEntries_term req).mono fun r same _ =>
        same.trans (steppedDown_term current req.leaderID)
    · rintro ⟨⟩
  · rename_i settled
    push Not at settled
    exact (matchEntries_term req).mono fun r same _ => same.trans (le_antisymm current settled.1)

theorem handleInstallSnapshot_heeds (req : InstallSnapshotRequest) :
    (n.handleInstallSnapshot cfg req).All fun r =>
      ∀ resp, r.2 = .answer resp → resp.success = true → r.1.currentTerm = req.term := by
  have collected (m : Node) (same : m.currentTerm = req.term) : (m.collectChunk req).1.currentTerm =
      req.term := by
    rcases collectChunk_eq m req with ⟨pending, memory⟩
    rw [memory]
    exact same
  unfold handleInstallSnapshot
  split
  · rintro resp ⟨⟩ ⟨⟩
  split
  · rintro resp ⟨⟩ ⟨⟩
  split
  · rintro resp ⟨⟩ ⟨⟩
  rename_i current
  push Not at current
  split
  · refine All.bind (becomeFollowerLocked_all ?_ ?_)
    · exact fun _ _ _ => collected _ (steppedDown_term current req.leaderID)
    · rintro resp ⟨⟩ ⟨⟩
  · rename_i settled
    push Not at settled
    exact fun _ _ _ => collected n (le_antisymm current settled.1)

theorem finishInstall_term (req : InstallSnapshotRequest) (body : Bytes) (data : Option KVMap) :
    (n.finishInstall cfg req body data).All fun r => r.1.currentTerm = n.currentTerm := by
  unfold finishInstall
  simp only
  split
  · rfl
  split
  · rfl
  split
  · simp only [persistInstall, saveHardStateLocked, perform_bind, all_call, if_true]
    exact ⟨⟨⟨rfl, rfl⟩, rfl⟩, rfl⟩
  · rfl

theorem installDecoded_heeds (req : InstallSnapshotRequest) (body : Bytes) (data : Option KVMap) :
    (n.installDecoded cfg req body data).All fun r => r.2.success = true →
      r.1.currentTerm = req.term := by
  unfold installDecoded
  simp only
  split
  · rintro ⟨⟩
  split
  · rintro ⟨⟩
  split
  · rintro ⟨⟩
  rename_i current
  push Not at current
  split
  · refine All.bind (becomeFollowerLocked_all ?_ ?_)
    · exact (finishInstall_term req body data).mono fun r same _ =>
        same.trans (steppedDown_term current req.leaderID)
    · rintro ⟨⟩
  · rename_i settled
    push Not at settled
    exact (finishInstall_term req body data).mono fun r same _ =>
      same.trans (le_antisymm current settled.1)

theorem advanceCommitLocked_term :
    (n.advanceCommitLocked cfg).All fun m => m.currentTerm = n.currentTerm := by
  unfold advanceCommitLocked
  split
  · rfl
  · simp only [persistHardStateLocked, saveHardStateLocked, perform_bind, all_call]
    exact ⟨rfl, rfl⟩

theorem replicateReply_heeds (peer : NodeId) (req : AppendEntriesRequest)
    (resp : AppendEntriesResponse) :
    (n.replicateReply cfg peer req resp).All fun r =>
      r.2 = some true → resp.success = true ∧ r.1.currentTerm = req.term := by
  unfold replicateReply
  split
  · exact All.bind (becomeFollowerLocked_all (by rintro ⟨⟩) (by rintro ⟨⟩))
  split
  · rintro ⟨⟩
  rename_i ours
  push Not at ours
  split
  · rename_i success
    exact All.bind (advanceCommitLocked_term.mono fun m same _ => ⟨success, same.trans ours.2⟩)
  split <;> rintro ⟨⟩

theorem sendSnapshotReply_heeds (term : Nat) (resp : InstallSnapshotResponse) :
    (n.sendSnapshotReply cfg term resp).All fun r => r.2 = true → r.1.currentTerm = term := by
  unfold sendSnapshotReply
  split
  · exact All.bind (becomeFollowerLocked_all (by rintro ⟨⟩) (by rintro ⟨⟩))
  · exact fun leads => (of_decide_eq_true leads).2

end Node

def Proc.Stands (proc : Option Proc) (term : Nat) : Prop :=
  ∃ p, proc = some p ∧ p.node.currentTerm = term

/-- What an acknowledgement says about the term of the process that has given or counted it. -/
def Output.Heeds (host : Host) (action : Action) (proc : Option Proc) : Output → Prop
  | .append resp =>
      resp.success = true → ∃ req, action = .appendEntries req ∧ Proc.Stands proc req.term
  | .snapshot number resp => resp.success = true →
      ∃ req, host.Answers action number req ∧ Proc.Stands proc req.term
  | .replicated peer acked => acked = true →
      (∃ req resp, action = .replicateReply peer req resp ∧ resp.success = true ∧
        Proc.Stands proc req.term) ∨ ∃ term snapIdx, action = .snapshotSent peer term snapIdx
  | .chunkAcked acked => acked = true →
      ∃ term resp, action = .snapshotReply term resp ∧ resp.success = true ∧ Proc.Stands proc term
  | _ => True

namespace Host

variable {cfg : Config} {codec : SnapshotCodec} {host : Host} {fates : List Fate} {action : Action}

theorem run_heeds {α : Type} {program : Program StoreOp α} {post : α → Prop}
    {finish : α → Host × Output} (every : program.All post)
    (finished : ∀ value, post value → (finish value).2.Heeds host action (finish value).1.proc) :
    (host.run program fates finish).2.Heeds host action (host.run program fates finish).1.proc := by
  unfold run
  cases ending : program.exec store host.disk fates with
  | done value disk => exact finished value (every.exec ending)
  | crashed disk => trivial

theorem run_silent {α : Type} {program : Program StoreOp α} {finish : α → Host × Output}
    (finished : ∀ value proc, (finish value).2.Heeds host action proc) :
    (host.run program fates finish).2.Heeds host action (host.run program fates finish).1.proc := by
  unfold run
  cases program.exec store host.disk fates with
  | done value disk => exact finished value _
  | crashed disk => trivial

theorem step_heeds (action : Action) :
    (host.step cfg codec fates action).2.Heeds host action
    (host.step cfg codec fates action).1.proc := by
  unfold Host.step
  split
  · rename_i p live
    cases action with
    | requestVote req => exact run_silent fun _ _ => trivial
    | appendEntries req =>
        exact run_heeds (Node.handleAppendEntries_heeds req) fun r heeds success =>
          ⟨req, rfl, _, rfl, heeds success⟩
    | installSnapshot call req =>
        simp only [Proc.step]
        split
        · apply run_heeds (Node.handleInstallSnapshot_heeds req)
          rintro ⟨m, progress⟩ heeds
          cases progress with
          | answer resp => exact fun success => ⟨req, Or.inl rfl, _, rfl, heeds resp rfl success⟩
          | decode body => trivial
        · trivial
    | installDecoded =>
        simp only [Proc.step]
        split
        · rename_i call req body held
          split
          · rintro ⟨⟩
          · rename_i data decoded
            split
            · apply run_heeds (Node.installDecoded_heeds req body data)
              exact fun r heeds success => ⟨req, Or.inr ⟨rfl, p, body, live, held⟩, _, rfl,
                heeds success⟩
            · trivial
        · trivial
    | propose command => exact run_silent fun _ _ => trivial
    | cancel index chan => trivial
    | startElection =>
        apply run_silent
        rintro ⟨m, req⟩ proc
        cases req <;> trivial
    | becomeLeader term => exact run_silent fun _ _ => trivial
    | stepDown term leaderID => exact run_silent fun _ _ => trivial
    | replicate peer => trivial
    | replicateReply peer req resp =>
        apply run_heeds (Node.replicateReply_heeds peer req resp)
        rintro ⟨m, acked⟩ heeds
        cases acked with
        | none => trivial
        | some acked =>
            intro yes
            rcases heeds (congrArg some yes) with ⟨success, current⟩
            exact Or.inl ⟨req, resp, rfl, success, _, rfl, current⟩
    | snapshotReply term resp =>
        apply run_heeds (Node.sendSnapshotReply_heeds term resp)
        rintro ⟨m, leads⟩ heeds acked
        rcases Bool.and_eq_true_iff.mp acked with ⟨yes, success⟩
        exact ⟨term, resp, rfl, success, _, rfl, heeds yes⟩
    | snapshotSent peer term snapIdx => exact fun _ => Or.inr ⟨term, snapIdx, rfl⟩
    | applyNext =>
        simp only [Proc.step]
        split
        · split <;> trivial
        · trivial
    | applyEntry | applyDone =>
        simp only [Proc.step]
        split <;> trivial
    | persistCheck position =>
        simp only [Proc.step]
        split
        · split <;> trivial
        · trivial
    | persistSave | persistEnd =>
        simp only [Proc.step]
        split
        · exact run_silent fun _ _ => trivial
        · trivial
    | stop | crash | restart => trivial
  · split
    · exact run_silent fun _ _ => trivial
    · trivial

end Host

def Request.term : Request → Nat
  | .vote req => req.term
  | .append req => req.term
  | .snapshot req => req.term

def Response.success : Response → Bool
  | .vote _ => false
  | .append resp => resp.success
  | .snapshot resp => resp.success

namespace Cluster

variable {setting : Setting} {w next : Cluster} {event : Event} {task : Task}

theorem stands_of_reply (filed : w.Filed) (asked : w.Asked setting task) {number : Nat}
    {resp : Response} (replied : (w.outcome setting task).2.reply task.call = some (number, resp))
    (success : resp.success = true) {call : Call} (found : w.calls[number]? = some call) :
    Proc.Stands (w.outcome setting task).1.proc call.request.term := by
  have heeds : (w.outcome setting task).2.Heeds _ _ _ := Host.step_heeds task.action
  cases spoken : (w.outcome setting task).2 with
  | vote vote =>
      rw [spoken] at replied
      cases replied
      cases success
  | append append =>
      rw [spoken] at heeds replied
      cases replied
      rcases heeds success with ⟨req, action, stands⟩
      simp only [Asked, action] at asked
      rcases asked with ⟨sender, issued, made⟩
      cases made.symm.trans found
      exact stands
  | snapshot sent snapshot =>
      rw [spoken] at heeds replied
      cases replied
      rcases heeds success with ⟨req, action | ⟨-, p, body, live, held⟩, stands⟩
      · simp only [Asked, action] at asked
        rcases asked with ⟨rfl, sender, issued, made⟩
        cases made.symm.trans found
        exact stands
      · rcases filed task.node p number req body live held with ⟨sender, issued, made⟩
        cases made.symm.trans found
        exact stands
  | _ =>
      rw [spoken] at replied
      cases replied

theorem record_reads (output : Output) :
    (w.record setting task output).reads = w.reads ∧ (w.record setting task output).gets = w.gets ∧
      (w.record setting task output).clock = w.clock := by
  unfold record
  split
  case h_13 | h_14 => split <;> exact ⟨rfl, rfl, rfl⟩
  all_goals exact ⟨rfl, rfl, rfl⟩

theorem step_clock (taken : w.step setting event = some next) : next.clock = w.clock + 1 := by
  rcases step_cases taken with ⟨task, -, -, rfl⟩ | ⟨mid, handled, rfl⟩
  · exact congrArg (· + 1) (record_reads (w.outcome setting task).2).2.2
  · have same : mid.clock = w.clock := by cases client_cases handled <;> rfl
    exact congrArg (· + 1) same

theorem step_call (taken : w.step setting event = some next) {call : Call}
    (member : call ∈ next.calls) :
    call ∈ w.calls ∨ call.issued = w.clock := by
  have sent {sender receiver : NodeId} {request : Request}
      (member : call ∈ (w.send sender receiver request).calls) :
      call ∈ w.calls ∨ call.issued = w.clock := by
    rcases List.mem_append.mp member with old | new
    · exact Or.inl old
    · rw [List.mem_singleton.mp new]
      exact Or.inr rfl
  rcases step_cases taken with ⟨task, -, -, rfl⟩ | ⟨mid, handled, rfl⟩
  · change call ∈ (record _ setting task (w.outcome setting task).2).calls at member
    unfold record at member
    split at member
    case h_10 peer req => exact sent member
    case h_13 | h_14 => split at member <;> exact Or.inl member
    all_goals exact Or.inl member
  · cases client_cases handled with
    | solicit | chunk => exact sent member
    | _ => exact Or.inl member

theorem record_ack {output : Output} {number : Nat}
    (member : number ∈ (w.record setting task output).acks) :
    number ∈ w.acks ∨ (number = task.call ∧ ∃ peer, output = .replicated peer true) := by
  unfold record at member
  split at member
  case h_13 peer acked =>
    split at member
    · rename_i yes
      rcases List.mem_append.mp member with old | new
      · exact Or.inl old
      · exact Or.inr ⟨List.mem_singleton.mp new, peer, by rw [yes]⟩
    · exact Or.inl member
  case h_14 acked => split at member <;> exact Or.inl member
  all_goals exact Or.inl member

theorem step_counted (taken : w.step setting event = some next) {number : Nat}
    (member : number ∈ next.shipped ∨ number ∈ next.acks) :
    (number ∈ w.shipped ∨ number ∈ w.acks) ∨ ∃ task, w.server setting event = some task ∧
      number = task.call ∧ ((w.outcome setting task).2 = .chunkAcked true ∨ ∃ peer,
        (w.outcome setting task).2 = .replicated peer true) := by
  rcases step_cases taken with ⟨task, ran, -, rfl⟩ | ⟨mid, handled, rfl⟩
  · rcases member with shipped | acked
    · rcases record_shipped shipped with old | ⟨own, output⟩
      · exact Or.inl (Or.inl old)
      · exact Or.inr ⟨task, ran, own, Or.inl output⟩
    · rcases record_ack acked with old | ⟨own, output⟩
      · exact Or.inl (Or.inr old)
      · exact Or.inr ⟨task, ran, own, Or.inr output⟩
  · have same : mid.shipped = w.shipped ∧ mid.acks = w.acks := by
      cases client_cases handled <;> exact ⟨rfl, rfl⟩
    refine Or.inl ?_
    rw [← same.1, ← same.2]
    exact member

/-- A run of the cluster next to the protocol that it realizes; the time is the cluster's clock. -/
structure Chronicle (setting : Setting) extends
    Timeline (Step setting Reliable) (fun w a => w.Realizes setting a) Consensus.Extends where
  begun : states 0 = initial

theorem chronicle_of_run (run : Run setting Reliable initial w) :
    ∃ chronicle : Chronicle setting, chronicle.states chronicle.length = w := by
  have simulates (w next : Cluster) (a : Ideal) (realizes : w.Realizes setting a)
      (step : Step setting Reliable w next) :
      ∃ b, Consensus.Extends a b ∧ next.Realizes setting b := by
    rcases step with ⟨event, next, reliable, taken⟩
    exact realizes.step taken reliable
  rcases Timeline.exists_of_run simulates realizes_initial run with ⟨line, begun, ended⟩
  exact ⟨⟨line, begun⟩, ended⟩

/-- What is known about the requests to a peer and about its acknowledgements. -/
def hearing (setting : Setting) (past : Nat → Ideal) : Ledger where
  call call := call.receiver ∈ (setting.config call.sender).peerAddrs
  reply call resp := resp.success = true → (past call.issued).term call.receiver ≤ call.request.term
  campaign _ := True
  stream stream := stream.peer ∈ (setting.config stream.node).peerAddrs

/-- What the acknowledgements in hand say about the terms of the peers at the time of the calls. -/
structure Hears (w : Cluster) (setting : Setting) (past : Nat → Ideal) : Prop where
  issued : ∀ call ∈ w.calls, call.issued ≤ w.clock
  ledger : (hearing setting past).Holds w
  counted : ∀ number, number ∈ w.shipped ∨ number ∈ w.acks → ∃ call, w.calls[number]? = some call ∧
    (past call.issued).term call.receiver ≤ (past w.clock).term call.sender

namespace Chronicle

variable (chronicle : Chronicle setting) {time : Nat}

theorem extended {early late : Nat} (order : early ≤ late) (bound : late ≤ chronicle.length) :
    Consensus.Extends (chronicle.ideals early) (chronicle.ideals late) :=
  chronicle.mono .refl .trans order bound

theorem stepped (before : time < chronicle.length) :
    ∃ event, (chronicle.states time).step setting event = some (chronicle.states (time + 1)) := by
  have step := chronicle.steps time before
  generalize chronicle.states (time + 1) = next at step ⊢
  rcases step with ⟨event, next, -, taken⟩
  exact ⟨event, taken⟩

theorem reached (bound : time ≤ chronicle.length) :
    Run setting Reliable initial (chronicle.states time) := by
  rw [← chronicle.begun]
  exact chronicle.run bound

theorem clock (bound : time ≤ chronicle.length) : (chronicle.states time).clock = time := by
  induction time with
  | zero =>
      rw [chronicle.begun]
      rfl
  | succ time ih =>
      rcases chronicle.stepped bound with ⟨event, taken⟩
      rw [step_clock taken, ih (Nat.le_of_succ_le bound)]

theorem term_of_live (bound : time ≤ chronicle.length) {id : NodeId} {p : Proc}
    (live : ((chronicle.states time).hosts id).proc = some p) :
    (chronicle.ideals time).term id = p.node.currentTerm :=
  ((chronicle.realized time bound).proc live).node.term

variable {event : Event} {task : Task}

theorem term_of_stands (before : time < chronicle.length)
    (taken : (chronicle.states time).step setting event = some (chronicle.states (time + 1)))
    (ran : (chronicle.states time).server setting event = some task) {term : Nat}
    (stands : Proc.Stands ((chronicle.states time).outcome setting task).1.proc term) :
    (chronicle.ideals (time + 1)).term task.node = term := by
  rcases stands with ⟨q, alive, rfl⟩
  rw [← step_served taken ran] at alive
  exact chronicle.term_of_live before alive

theorem hears_admits (before : time < chronicle.length)
    (hears : (chronicle.states time).Hears setting chronicle.ideals)
    (taken : (chronicle.states time).step setting event = some (chronicle.states (time + 1)))
    (ran : (chronicle.states time).server setting event = some task) :
    (hearing setting chronicle.ideals).Admits (chronicle.states time) task
      ((chronicle.states time).outcome setting task).2 := by
  have asked := server_asked ran
  -- the receiver is in the request's term now, so it was not beyond it when the call was made
  have heard {number : Nat} {call : Call} (found : (chronicle.states time).calls[number]? =
      some call) (receiver : call.receiver = task.node) {term : Nat}
      (stands : Proc.Stands ((chronicle.states time).outcome setting task).1.proc term) :
      (chronicle.ideals call.issued).term call.receiver ≤ term := by
    have made : call.issued ≤ time := by
      have issued := hears.issued call (List.mem_of_getElem? found)
      rwa [chronicle.clock before.le] at issued
    rw [← chronicle.term_of_stands before taken ran stands, receiver]
    exact (chronicle.extended (made.trans (Nat.le_succ time)) before).term task.node
  constructor
  case replied =>
    intro number resp replied
    have filed := (chronicle.realized time before.le).filed
    rcases filed.replied asked replied with ⟨call, found, receiver⟩
    exact ⟨call, found, fun success => heard found receiver (stands_of_reply filed asked replied
      success found)⟩
  case stood => exact fun _ _ => trivial
  case appended =>
    intro peer req issued output
    rcases Host.step_dispatch output with ⟨p, -, action, -⟩
    simp only [Asked, action] at asked
    exact asked
  case streamed =>
    intro peer term snapshot chunkSize output
    rcases Host.step_dispatch output with ⟨p, -, action, -⟩
    simp only [Asked, action] at asked
    exact asked

/-- An answer that counts comes from a peer that was not beyond the sender's term when it was
asked. -/
theorem hears_counted (before : time < chronicle.length)
    (hears : (chronicle.states time).Hears setting chronicle.ideals)
    (taken : (chronicle.states time).step setting event = some (chronicle.states (time + 1)))
    {number : Nat} (member : number ∈ (chronicle.states (time + 1)).shipped ∨
      number ∈ (chronicle.states (time + 1)).acks) :
    ∃ call, (chronicle.states time).calls[number]? = some call ∧
      (chronicle.ideals call.issued).term call.receiver ≤
      (chronicle.ideals (time + 1)).term call.sender := by
  have kept (old : number ∈ (chronicle.states time).shipped ∨
      number ∈ (chronicle.states time).acks) :
      ∃ call, (chronicle.states time).calls[number]? = some call ∧
        (chronicle.ideals call.issued).term call.receiver ≤ (chronicle.ideals (time + 1)).term
        call.sender := by
    rcases hears.counted number old with ⟨call, found, behind⟩
    rw [chronicle.clock before.le] at behind
    exact ⟨call, found, behind.trans ((chronicle.grown time before).term call.sender)⟩
  rcases step_counted taken member with old | ⟨task, ran, rfl, output⟩
  · exact kept old
  have asked := server_asked ran
  have heeds : ((chronicle.states time).outcome setting task).2.Heeds _ _ _ :=
    Host.step_heeds task.action
  have answered {call : Call} {resp : Response}
      (replied : (task.call, resp) ∈ (chronicle.states time).replies)
      (success : resp.success = true) (found : (chronicle.states time).calls[task.call]? =
      some call) (own : call.sender = task.node)
      (stands : Proc.Stands ((chronicle.states time).outcome setting task).1.proc
        call.request.term) :
      ∃ call, (chronicle.states time).calls[task.call]? = some call ∧
        (chronicle.ideals call.issued).term call.receiver ≤ (chronicle.ideals (time + 1)).term
        call.sender := by
    rcases hears.ledger.replies _ _ replied with ⟨other, made, known⟩
    cases made.symm.trans found
    refine ⟨call, found, ?_⟩
    rw [own, chronicle.term_of_stands before taken ran stands]
    exact known success
  rcases output with chunk | ⟨peer, acked⟩
  · rw [chunk] at heeds
    rcases heeds rfl with ⟨term, resp, action, success, stands⟩
    simp only [Asked, action] at asked
    rcases asked with ⟨replied, receiver, req, issued, rfl, found⟩
    exact answered replied success found rfl stands
  · rw [acked] at heeds
    rcases heeds rfl with ⟨req, resp, action, success, stands⟩ | ⟨term, snapIdx, action⟩
    · simp only [Asked, action] at asked
      rcases asked with ⟨replied, issued, found⟩
      exact answered replied success found rfl stands
    · simp only [Asked, action] at asked
      exact kept (Or.inl asked.1)

theorem hears (bound : time ≤ chronicle.length) :
    (chronicle.states time).Hears setting chronicle.ideals := by
  induction time with
  | zero =>
      rw [chronicle.begun]
      exact ⟨by simp [initial],
        ⟨by simp [initial], by simp [initial], by simp [initial], by simp [initial]⟩,
        by simp [initial]⟩
  | succ time ih =>
      have hears := ih (Nat.le_of_succ_le bound)
      rcases chronicle.stepped bound with ⟨event, taken⟩
      constructor
      case issued =>
        intro call member
        rw [step_clock taken]
        rcases step_call taken member with old | now
        · exact (hears.issued call old).trans (Nat.le_succ _)
        · exact now.le.trans (Nat.le_succ _)
      case ledger =>
        exact hears.ledger.step taken
          (fun task ran _ => chronicle.hears_admits bound hears taken ran)
          (fun campaign peer issued _ known => known) (fun stream offset issued known _ => known)
      case counted =>
        intro number member
        rcases chronicle.hears_counted bound hears taken member with ⟨call, found, behind⟩
        rw [chronicle.clock bound]
        exact ⟨call, (step_grows taken).calls number call found, behind⟩

end Chronicle

end Cluster

end GoRaftKV.Raft
