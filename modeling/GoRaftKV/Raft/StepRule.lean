import GoRaftKV.Raft.Votes
import GoRaftKV.Raft.HostSteps

namespace GoRaftKV.Raft

open Storage Library Program

namespace Node

/-- `m` differs from `n` in nothing that decides about terms, votes and roles, and has turned no
waiter away. -/
structure Akin (n m : Node) : Prop where
  term : m.currentTerm = n.currentTerm
  vote : m.votedFor = n.votedFor
  role : m.role = n.role
  fatal : m.storageFatal = n.storageFatal
  denies : n.Denies m

variable {cfg : Config} {n : Node}

theorem akin_replicate (peer : NodeId) : Akin n (n.replicateToPeer cfg peer).1 := by
  rcases replicateToPeer_eq n cfg peer with ⟨⟨nextIndex, same⟩, -⟩
  rw [same]
  exact ⟨rfl, rfl, rfl, rfl, .same rfl⟩

theorem akin_snapshotSent (peer : NodeId) (term snapIdx : Nat) :
    Akin n (n.snapshotSent peer term snapIdx) := by
  unfold snapshotSent
  split <;> exact ⟨rfl, rfl, rfl, rfl, .same rfl⟩

theorem akin_applyNext : Akin n n.applyNext.1 := by
  unfold applyNext
  split
  · exact ⟨rfl, rfl, rfl, rfl, .same rfl⟩
  split <;> exact ⟨rfl, rfl, rfl, rfl, .same rfl⟩

theorem akin_applyDone (entry : LogEntry) (result : ApplyResult) :
    Akin n (n.applyDone cfg entry result).1 := by
  rw [applyDone_eq]
  split
  · exact ⟨rfl, rfl, rfl, rfl,
      resolveWaiters_denies (n := { n with lastApplied := entry.index }) _ _ rfl⟩
  · exact ⟨rfl, rfl, rfl, rfl, .same rfl⟩

theorem akin_stop : Akin n n.stop := by
  unfold stop
  split
  · exact ⟨rfl, rfl, rfl, rfl, .same rfl⟩
  · exact ⟨rfl, rfl, rfl, rfl, resolveWaiters_denies (n := { n with stopped := true }) _ _ rfl⟩

/-- What the sections of `action` that call no store make of memory. -/
inductive Quiet (cfg : Config) (n : Node) : Action → Node → Prop where
  | idle (action : Action) : Quiet cfg n action n
  | undecoded : Quiet cfg n .installDecoded { n with pendingSnapshot := none }
  | cancel (index : Nat) (chan : ChanId) : Quiet cfg n (.cancel index chan) (n.removeWaiter
      index chan)
  | replicate (peer : NodeId) : Quiet cfg n (.replicate peer) (n.replicateToPeer cfg peer).1
  | snapshotSent (peer : NodeId) (term snapIdx : Nat) :
      Quiet cfg n (.snapshotSent peer term snapIdx) (n.snapshotSent peer term snapIdx)
  | applyNext : Quiet cfg n .applyNext n.applyNext.1
  | applyEntry (entry : LogEntry) : Quiet cfg n .applyEntry (n.applyEntry entry).1
  | applyDone (entry : LogEntry) (result : ApplyResult) :
      Quiet cfg n .applyDone (n.applyDone cfg entry result).1
  | stop : Quiet cfg n .stop n.stop

theorem Quiet.akin {action : Action} {m : Node} (quiet : Quiet cfg n action m) : Akin n m := by
  cases quiet with
  | replicate peer => exact akin_replicate peer
  | snapshotSent peer term snapIdx => exact akin_snapshotSent peer term snapIdx
  | applyNext => exact akin_applyNext
  | applyDone entry result => exact akin_applyDone entry result
  | stop => exact akin_stop
  | _ => exact ⟨rfl, rfl, rfl, rfl, .same rfl⟩

/-- A judgement on every section of `action` that calls the store. -/
structure Sections (judged : {α : Type} → Program StoreOp α → (α → Node) → Prop) (cfg : Config)
    (chans : Nat) (n : Node) (action : Action) : Prop where
  requestVote : ∀ req, action = .requestVote req → judged (n.handleRequestVote cfg req) Prod.fst
  appendEntries : ∀ req, action = .appendEntries req →
    judged (n.handleAppendEntries cfg req) Prod.fst
  installSnapshot : ∀ (call : Nat) req, action = .installSnapshot call req →
    judged (n.handleInstallSnapshot cfg req) Prod.fst
  installDecoded : ∀ req body data, action = .installDecoded →
    judged (n.installDecoded cfg req body data) Prod.fst
  propose : ∀ command, action = .propose command →
    judged (n.proposeAppend cfg command chans) Prod.fst
  startElection : action = .startElection → judged (n.startElection cfg) Prod.fst
  becomeLeader : ∀ (term : Nat), action = .becomeLeader term → judged (n.becomeLeader cfg term) id
  stepDown : ∀ (term : Nat) leaderID, action = .stepDown term leaderID →
    judged (n.becomeFollowerLocked cfg term leaderID) Prod.fst
  replicateReply : ∀ peer req resp, action = .replicateReply peer req resp →
    judged (n.replicateReply cfg peer req resp) Prod.fst
  snapshotReply : ∀ (term : Nat) resp, action = .snapshotReply term resp →
    judged (n.sendSnapshotReply cfg term resp) Prod.fst
  persistSave : ∀ snapshot, action = .persistSave →
    judged (perform (StoreOp.saveSnapshot snapshot)) fun _ => n
  persistEnd : ∀ snapshot, action = .persistEnd → judged (n.compact snapshot) id

end Node

/-- What holds after every section that calls the store, after every other section and after a crash
holds after every event. -/
theorem Proc.step_sections {cfg : Config} {codec : SnapshotCodec} {host : Host} {p : Proc}
    {fates : List Fate} {action : Action}
    {judged : {α : Type} → Program StoreOp α → (α → Node) → Prop} {good : Host → Prop}
    (live : host.proc = some p) (sections : Node.Sections judged cfg host.chans p.node action)
    (run : ∀ {α : Type} {program : Program StoreOp α} {memory : α → Node}
        {finish : α → Host × Output},
      judged program memory → (∀ value q, (finish value).1.proc = some q → q.node = memory value) →
      good (host.run program fates finish).1)
    (quiet : ∀ q, Node.Quiet cfg p.node action q.node → good (host.withProc q))
    (crash : good { host with proc := none }) : good (p.step cfg codec host fates action).1 := by
  have idle : good host := by
    have same : host.withProc p = host := by
      rcases host with ⟨disk, proc, chans⟩
      cases live
      rfl
    rw [← same]
    exact quiet p (.idle action)
  have node {α : Type} (output : α → Output) (value : Node × α) (q : Proc)
      (alive : ((host.withNode p value.1, output value.2) : Host × Output).1.proc = some q) :
      q.node = value.1 := by
    cases alive
    rfl
  cases action with
  | requestVote req => exact run (sections.requestVote req rfl) (node .vote)
  | appendEntries req => exact run (sections.appendEntries req rfl) (node .append)
  | installSnapshot call req =>
      simp only [Proc.step]
      split
      · apply run (sections.installSnapshot call req rfl)
        rintro ⟨m, progress⟩ q alive
        cases progress <;> cases alive <;> rfl
      · exact idle
  | installDecoded =>
      simp only [Proc.step]
      split
      · split
        · exact quiet _ .undecoded
        · split
          · apply run (sections.installDecoded _ _ _ rfl)
            intro value q alive
            cases alive
            rfl
          · exact idle
      · exact idle
  | propose command =>
      apply run (sections.propose command rfl)
      intro value q alive
      cases alive
      rfl
  | cancel index chan => exact quiet _ (.cancel index chan)
  | startElection => exact run (sections.startElection rfl) (node .ofElection)
  | becomeLeader term =>
      apply run (sections.becomeLeader term rfl)
      intro value q alive
      cases alive
      rfl
  | stepDown term leaderID =>
      exact run (sections.stepDown term leaderID rfl) (node fun _ => .nothing)
  | replicate peer => exact quiet _ (.replicate peer)
  | replicateReply peer req resp =>
      exact run (sections.replicateReply peer req resp rfl) (node (.ofAttempt peer))
  | snapshotReply term resp =>
      exact run (sections.snapshotReply term resp rfl)
        (node fun leads => .chunkAcked (leads && resp.success))
  | snapshotSent peer term snapIdx => exact quiet _ (.snapshotSent peer term snapIdx)
  | applyNext =>
      have applied : Node.Quiet cfg p.node .applyNext p.node.applyNext.1 := .applyNext
      simp only [Proc.step]
      split
      · generalize p.node.applyNext = outcome at applied ⊢
        rcases outcome with ⟨m, entry⟩
        cases entry with
        | none => exact quiet _ applied
        | some entry => exact quiet _ applied
      · exact idle
  | applyEntry =>
      simp only [Proc.step]
      split
      · exact quiet _ (.applyEntry _)
      · exact idle
  | applyDone =>
      simp only [Proc.step]
      split
      · exact quiet _ (.applyDone _ _)
      · exact idle
  | persistCheck position =>
      simp only [Proc.step]
      split
      · split <;> exact quiet _ (.idle _)
      · exact idle
  | persistSave =>
      simp only [Proc.step]
      split
      · apply run (sections.persistSave _ rfl)
        intro value q alive
        cases alive
        rfl
      · exact idle
  | persistEnd =>
      simp only [Proc.step]
      split
      · apply run (sections.persistEnd _ rfl)
        intro value q alive
        cases alive
        rfl
      · exact idle
  | stop => exact quiet _ .stop
  | crash => exact crash
  | restart => exact idle

/-- The rule for what depends on the terms, votes and roles alone. -/
theorem Proc.step_rule {cfg : Config} {codec : SnapshotCodec} {host : Host} {p : Proc}
    {fates : List Fate} {action : Action}
    {judged : {α : Type} → Program StoreOp α → (α → Node) → Prop} {good : Host → Prop}
    (live : host.proc = some p) (sections : Node.Sections judged cfg host.chans p.node action)
    (run : ∀ {α : Type} {program : Program StoreOp α} {memory : α → Node}
        {finish : α → Host × Output},
      judged program memory → (∀ value q, (finish value).1.proc = some q → q.node = memory value) →
      good (host.run program fates finish).1)
    (quiet : ∀ q, Node.Akin p.node q.node → good (host.withProc q))
    (crash : good { host with proc := none }) : good (p.step cfg codec host fates action).1 :=
  Proc.step_sections live sections run (fun q silent => quiet q silent.akin) crash

end GoRaftKV.Raft
