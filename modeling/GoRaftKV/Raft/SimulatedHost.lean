import GoRaftKV.Raft.Accounts
import GoRaftKV.Raft.Sound

/-! Every event of a machine is matched by moves of its node in the protocol. -/

namespace GoRaftKV.Raft

open Storage Library Program

/-- A process and its files are what the protocol says about `v`. -/
structure Proc.Realizes (p : Proc) (a : Ideal) (setting : Setting) (v : NodeId) (disk : Disk) :
    Prop where
  node : p.node.Realizes a setting.codec v
  accounts : p.node.Accounts p.applyMu
  files : Stored p.base disk p.node
  pending : ∀ snapshot, p.persistMu = .checked snapshot ∨ p.persistMu = .saved snapshot →
    p.node.worthPersisting snapshot = true ∧ Agreed a snapshot
  captured : ∀ snapshot ∈ p.captured, Agreed a snapshot
  decoding : ∀ call req body, p.persistMu = .decoding call req body →
    req.Follows a setting.codec ∧ body = bodyOf setting.codec req.history

def Host.Realizes (host : Host) (a : Ideal) (setting : Setting) (v : NodeId) : Prop :=
  match host.proc with
  | some p => p.Realizes a setting v host.disk
  | none => Dormant a setting.codec v host.disk

/-- A snapshot that the leader of `term` may send. -/
structure Ships (a : Ideal) (term : Nat) (snapshot : Snapshot) : Prop where
  led : (a.election term).isSome
  agreed : Agreed a snapshot
  chosen : Consensus.Chosen a term snapshot.history
  positive : 0 < snapshot.lastIncludedIndex

/-- What the protocol knows about a section before it runs. -/
def Action.Follows (action : Action) (host : Host) (a : Ideal) (setting : Setting) (v : NodeId) :
    Prop :=
  match action with
  | .requestVote req => req.Follows a
  | .appendEntries req => req.Follows a
  | .installSnapshot _ req => req.Follows a setting.codec
  | .startElection => ∀ p ∈ host.proc, p.node.currentTerm + 1 < uint64Size
  | .becomeLeader term =>
      ∃ electors, setting.Quorum electors ∧ ∀ u ∈ electors, ∃ ballot ∈ a.ballots, ballot.voter = u ∧
        ballot.term = term ∧ ballot.candidate = v
  | .replicateReply peer req resp =>
      resp.success = true → Acked a peer req.term (req.prevLogIndex + req.entries.length)
  | .snapshotSent peer term snapIdx => Acked a peer term snapIdx
  | _ => True

/-- The section answers call `number`, which brought `req`. -/
def Host.Answers (host : Host) (action : Action) (number : Nat) (req : InstallSnapshotRequest) :
    Prop :=
  action = .installSnapshot number req ∨
    (action = .installDecoded ∧ ∃ p body, host.proc = some p ∧
      p.persistMu = .decoding number req body)

/-- What a section must have put on record before it hands out its output. -/
def Output.Warranted (output : Output) (host : Host) (action : Action) (v : NodeId) (b : Ideal) :
    Prop :=
  match output with
  | .vote resp => ∃ req, action = .requestVote req ∧ (resp.voteGranted = true → Node.Voted v req b)
  | .append resp =>
      ∃ req, action = .appendEntries req ∧ (resp.success = true → Node.Accepted v req b)
  | .snapshot number resp => ∃ req, host.Answers action number req ∧
      (resp.success = true → req.done = true → Acked b v req.term req.lastIncludedIndex)
  | .campaign req => Node.Stands v req b
  | .dispatch _ (.append req) => req.Follows b
  | .dispatch _ (.snapshot term sent) => Ships b term sent
  | .chunkAcked acked =>
      ∃ term resp, action = .snapshotReply term resp ∧ (acked = true → resp.success = true)
  | _ => True

/-- The machine and the output of `v`, after some moves of the protocol. -/
def Host.Simulates (setting : Setting) (v : NodeId) (a : Ideal) (host : Host) (action : Action)
    (result : Host × Output) : Prop :=
  ∃ b, Reaches setting v a b ∧ result.1.Realizes b setting v ∧ result.2.Warranted host action v b

section Files

variable {setting : Setting} {a b : Ideal} {v : NodeId} {disk : Disk} {n m : Node} {base : Snapshot}
  {p : Proc}

theorem Stored.durable (stored : Stored n.snapshot disk n) : Durable disk n.snapshot n := by
  rcases stored with backed | broken
  · exact backed.2
  · have worth := broken.ready.1
    simp only [Node.worthPersisting, decide_eq_true_eq] at worth
    exact absurd worth.1 (lt_irrefl _)

theorem Stored.saved (stored : Stored base disk n) : disk.snapshot.getD {} = base := by
  rcases stored with backed | broken
  · exact backed.2.snapshot
  · exact broken.snapshot

theorem Stored.hardState (stored : Stored base disk n) :
    disk.hardState.getD {} = n.hardState n.commitIndex := by
  rcases stored with backed | broken
  · exact backed.2.hardState
  · exact broken.hardState

theorem Stored.applied (stored : Stored base disk n) (snapshot : m.snapshot = n.snapshot)
    (log : m.log = n.log) (hardState : m.hardState m.commitIndex = n.hardState n.commitIndex)
    (more : n.lastApplied ≤ m.lastApplied) :
    Stored base disk m := by
  have ready (before : n.Ready base) : m.Ready base := by
    refine ⟨?_, (Node.termAtLocked_congr snapshot log _).trans before.2⟩
    have worth := before.1
    simp only [Node.worthPersisting, decide_eq_true_eq, snapshot] at worth ⊢
    exact ⟨worth.1, worth.2.trans more⟩
  rcases stored with ⟨covers, durable⟩ | broken
  · refine Or.inl ⟨?_, durable.of_same hardState snapshot log⟩
    rcases covers with same | before
    · exact Or.inl (same.trans snapshot.symm)
    · exact Or.inr (ready before)
  · exact Or.inr ⟨ready broken.ready, broken.hardState.trans hardState.symm, broken.snapshot,
      broken.entries.trans log.symm, broken.unreadable⟩

theorem Proc.Realizes.based (realizes : p.Realizes a setting v disk) : Agreed a p.base := by
  unfold Proc.base
  split
  · rename_i snapshot saved
    exact (realizes.pending snapshot (Or.inr saved)).2
  · exact realizes.node.snapshot

theorem Proc.Realizes.stops (realizes : p.Realizes b setting v disk)
    (reach : Reaches setting v a b) :
    ∃ c, Reaches setting v a c ∧ Dormant c setting.codec v disk := by
  apply realizes.node.rests reach (realizes.files.left realizes.node.wf)
  rw [realizes.files.saved]
  exact realizes.based

theorem Host.Realizes.other {host : Host} (realizes : host.Realizes a setting v) {u : NodeId}
    (acts : Consensus.Acts u a b) (other : v ≠ u) : host.Realizes b setting v := by
  unfold Host.Realizes at realizes ⊢
  cases live : host.proc with
  | none =>
      rw [live] at realizes
      rcases realizes with ⟨agreed, k, role, node, left⟩
      exact ⟨agreed.mono acts.grows, k, role, node.other acts other, left⟩
  | some p =>
      rw [live] at realizes
      refine ⟨realizes.node.other acts other, realizes.accounts, realizes.files, ?_, ?_, ?_⟩
      · intro snapshot held
        rcases realizes.pending snapshot held with ⟨worth, agreed⟩
        exact ⟨worth, agreed.mono acts.grows⟩
      · exact fun snapshot member => (realizes.captured snapshot member).mono acts.grows
      · intro call req body held
        rcases realizes.decoding call req body held with ⟨follows, whole⟩
        exact ⟨follows.mono acts.grows, whole⟩

theorem Proc.Realizes.steady {after : Disk} (realizes : p.Realizes a setting v disk)
    (steady : p.node.Steady m) (reach : Reaches setting v a b) (now : m.Realizes b setting.codec v)
    (files : Stored p.base after m) :
    Proc.Realizes { p with node := m } b setting v after where
  node := now
  accounts := realizes.accounts.steady steady realizes.node now reach.acts.grows reach.inv
  files := by
    have same : Proc.base { p with node := m } = p.base := by
      simp only [Proc.base, steady.snapshot]
    rw [same]
    exact files
  pending := by
    intro snapshot held
    rcases realizes.pending snapshot held with ⟨worth, agreed⟩
    simp only [Node.worthPersisting, steady.snapshot, steady.applied]
    exact ⟨worth, agreed.mono reach.acts.grows⟩
  captured := fun snapshot member => (realizes.captured snapshot member).mono reach.acts.grows
  decoding := by
    intro call req body held
    rcases realizes.decoding call req body held with ⟨follows, whole⟩
    exact ⟨follows.mono reach.acts.grows, whole⟩

theorem Proc.Realizes.quiet (realizes : p.Realizes a setting v disk)
    (inv : Consensus.Inv LogEntry.term setting.Quorum a) (now : m.Realizes a setting.codec v)
    (same : SameLog p.node m) (steady : p.node.Steady m)
    (hardState : m.hardState m.commitIndex = p.node.hardState p.node.commitIndex) :
    Proc.Realizes { p with node := m } a setting v disk :=
  realizes.steady steady (.refl inv) now
    ((stored_tracks p.base).same realizes.files ⟨same.snapshot, same.log, same.applied⟩ hardState)

end Files

section Dispatch

variable {setting : Setting} {cfg : Config} {a : Ideal} {v : NodeId} {n : Node}

theorem Node.Realizes.leaderLog (realizes : n.Realizes a setting.codec v)
    (inv : Consensus.Inv LogEntry.term setting.Quorum a) (leads : n.role = .leader) :
    (a.election n.currentTerm).isSome ∧ a.leaderLog n.currentTerm = n.fullLog := by
  rcases inv.leads v (realizes.role.trans leads) with ⟨won, elected, -, log⟩
  rw [realizes.term] at elected log
  exact ⟨by rw [elected]; rfl, log.symm.trans realizes.log⟩

theorem Node.Realizes.append (realizes : n.Realizes a setting.codec v)
    (inv : Consensus.Inv LogEntry.term setting.Quorum a) {req : AppendEntriesRequest}
    (sent : Node.Dispatch.From n cfg (.append req)) : req.Follows a := by
  have ordered := sent.contiguous realizes.wf
  rcases sent with ⟨leads, after, previous, request⟩
  rcases realizes.leaderLog inv leads with ⟨led, log⟩
  have bound := Node.termAtLocked_bound realizes.wf.contiguous after previous
  have committed := realizes.wf.committed
  have length := realizes.whole.lastIndex
  rw [length] at committed
  have term : req.term = n.currentTerm := by rw [request]
  have commit : req.leaderCommit = n.commitIndex := by rw [request]
  have entries : req.entries = n.fullLog.drop req.prevLogIndex := by
    have place : req.prevLogIndex + 1 - n.snapshot.lastIncludedIndex - 1 =
        req.prevLogIndex - n.snapshot.lastIncludedIndex := by omega
    calc req.entries = n.entriesFromLocked (req.prevLogIndex + 1) := by rw [request]
      _ = n.log.drop (req.prevLogIndex - n.snapshot.lastIncludedIndex) := by
        rw [Node.entriesFromLocked, realizes.wf.contiguous.filter_le (Nat.lt_succ_of_le after),
          place]
      _ = n.fullLog.drop req.prevLogIndex := by
        rw [← realizes.whole.drop_compacted, List.drop_drop, Nat.add_sub_cancel' after]
  rw [← term] at led log
  refine ⟨led, ?_, ?_, ?_, ?_, ?_, ordered⟩
  · rw [log, ← length]
    exact bound
  · rw [log, entries, List.take_append_drop]
  · rw [log]
    rcases Nat.eq_zero_or_pos req.prevLogIndex with zero | positive
    · rw [zero] at previous ⊢
      exact Option.some.inj previous
    · rw [realizes.whole.termAt positive after, endTerm_take positive (length ▸ bound)] at previous
      exact Option.some.inj previous
  · rw [log, commit]
    exact committed
  · rw [log, commit, term, ← realizes.term]
    exact realizes.committed

theorem Node.Realizes.ships (realizes : n.Realizes a setting.codec v)
    (inv : Consensus.Inv LogEntry.term setting.Quorum a) {term : Nat} {snapshot : Snapshot}
    (sent : Node.Dispatch.From n cfg (.snapshot term snapshot)) : Ships a term snapshot := by
  rcases sent with ⟨leads, rfl, rfl, positive⟩
  refine ⟨(realizes.leaderLog inv leads).1, realizes.snapshot, ?_, positive⟩
  have compacted := realizes.wf.compacted
  rw [← realizes.whole.take_compacted, ← realizes.term]
  exact realizes.chosen (compacted.trans realizes.wf.applied)

end Dispatch

namespace Proc

variable {setting : Setting} {a b : Ideal} {v : NodeId} {host : Host} {p : Proc} {fates : List Fate}
  {action : Action}

/-- What a section that leaves snapshot and state machine alone must give. -/
def Section (setting : Setting) (v : NodeId) (a : Ideal) (p : Proc) (disk : Disk) {α : Type}
    (program : Program StoreOp α) (memory : α → Node) (also : α → Ideal → Prop) : Prop :=
  program.wp store
    (fun value after => Stored p.base after (memory value) ∧
      p.node.Attains setting v a (also value) (memory value))
    (Stops (Stored p.base) (p.node.Passes setting v a)) disk

theorem section_of_passes {α : Type} {program : Program StoreOp α} {memory : α → Node} {disk : Disk}
    (holds : program.wp store (fun value after => Stored p.base after (memory value) ∧
      p.node.Passes setting v a (memory value)) (Stops (Stored p.base) (p.node.Passes setting v a))
        disk) :
    p.Section setting v a disk program memory fun _ _ => True :=
  wp_mono _ _ (fun _ _ done => ⟨done.1, done.2.attains fun _ => trivial⟩) (fun _ stops => stops)
    holds

theorem run_simulated {α : Type} {program : Program StoreOp α} {memory : α → Node}
    {also : α → Ideal → Prop} {finish : α → Host × Output}
    (realizes : p.Realizes a setting v host.disk)
    (holds : p.Section setting v a host.disk program memory also) (errorless : Errorless fates)
    (finished : ∀ value disk b, Reaches setting v a b → p.node.Steady (memory value) →
      Proc.Realizes { p with node := memory value } b setting v disk → also value b →
      Host.Realizes { (finish value).1 with disk := disk } b setting v ∧
        (finish value).2.Warranted host action v b) :
    Host.Simulates setting v a host action (host.run program fates finish) := by
  have meets := wp_exec program host.disk fates holds errorless
  unfold Host.run
  cases ending : program.exec store host.disk fates with
  | done value disk =>
      rw [ending] at meets
      rcases meets with ⟨files, steady, b, reach, now, also⟩
      exact ⟨b, reach, finished value disk b reach steady (realizes.steady steady reach now files)
        also⟩
  | crashed disk =>
      rw [ending] at meets
      rcases meets with ⟨k, ⟨steady, b, reach, now⟩, files⟩
      have kept : Proc.Realizes { p with node := k } b setting v disk :=
        realizes.steady steady reach now files
      rcases kept.stops reach with ⟨c, further, rests⟩
      exact ⟨c, further, rests, trivial⟩

theorem Realizes.relock {disk : Disk} {lock : PersistLock} {captured : List Snapshot}
    (realizes : p.Realizes a setting v disk)
    (base : Proc.base { p with persistMu := lock } = p.base)
    (pending : ∀ snapshot, lock = .checked snapshot ∨ lock = .saved snapshot →
      p.node.worthPersisting snapshot = true ∧ Agreed a snapshot)
    (agreed : ∀ snapshot ∈ captured, Agreed a snapshot)
    (decoding : ∀ call req body, lock = .decoding call req body →
      req.Follows a setting.codec ∧ body = bodyOf setting.codec req.history) :
    Proc.Realizes { p with persistMu := lock, captured := captured } a setting v disk where
  node := realizes.node
  accounts := realizes.accounts
  files := (congrArg (Stored · disk p.node) base).mpr realizes.files
  pending := pending
  captured := agreed
  decoding := decoding

section Sections

variable (live : host.proc = some p) (realizes : p.Realizes a setting v host.disk)
  (inv : Consensus.Inv LogEntry.term setting.Quorum a)

include live realizes inv

theorem idle_simulated : Host.Simulates setting v a host action (host, .nothing) := by
  refine ⟨a, .refl inv, ?_, trivial⟩
  unfold Host.Realizes
  rw [live]
  exact realizes

theorem installSnapshot_simulated {number : Nat} {req : InstallSnapshotRequest}
    (follows : req.Follows a setting.codec) (errorless : Errorless fates) :
    Host.Simulates setting v a host (.installSnapshot number req)
      (p.step (setting.config v) setting.codec host fates (.installSnapshot number req)) := by
  have start : p.node.Passes setting v a p.node := ⟨.refl _, a, .refl inv, realizes.node⟩
  simp only [Proc.step]
  split
  · rename_i free
    apply run_simulated realizes (Node.handleInstallSnapshot_attains start follows realizes.files)
      errorless
    rintro ⟨m, progress⟩ disk b reach steady now received
    cases progress with
    | answer resp => exact ⟨now, req, Or.inl rfl, received⟩
    | decode body =>
        refine ⟨now.relock ?_ ?_ now.captured ?_, trivial⟩
        · simp only [Proc.base, free]
        · rintro snapshot (lock | lock) <;> cases lock
        · rintro _ _ _ ⟨⟩
          exact ⟨follows.mono reach.acts.grows, received⟩
  · exact idle_simulated live realizes inv

theorem installDecoded_simulated (errorless : Errorless fates) :
    Host.Simulates setting v a host .installDecoded
      (p.step (setting.config v) setting.codec host fates .installDecoded) := by
  simp only [Proc.step]
  split
  · rename_i number req body held
    rcases realizes.decoding number req body held with ⟨follows, whole⟩
    have decoded : setting.codec.decodeBody body =
        some (some (KVStateMachine.replay ∅ req.history)) := by
      rw [whole, SnapshotCodec.decodeBody, bodyOf, if_neg (setting.codec.marshal_ne_nil _),
        setting.codec.unmarshal_marshal]
    rw [decoded]
    simp only
    split
    · rename_i free
      have durable : Durable host.disk p.node.snapshot p.node := by
        have files := realizes.files
        simp only [Proc.base, held] at files
        exact files.durable
      have attained : (p.node.installDecoded (setting.config v) req body
          (some (KVStateMachine.replay ∅ req.history))).wp store _ _ host.disk :=
        Node.installDecoded_attains realizes.node inv (free ▸ realizes.accounts) follows durable
      have meets := wp_exec _ host.disk fates attained errorless
      unfold Host.run
      generalize (p.node.installDecoded (setting.config v) req body
        (some (KVStateMachine.replay ∅ req.history))).exec store host.disk fates = ending at meets ⊢
      cases ending with
      | done value disk =>
          rcases meets with ⟨written, settled, b, reach, now, acked⟩
          refine ⟨b, reach, ?_, req, Or.inr ⟨rfl, p, body, live, held⟩, fun success _ =>
            acked success⟩
          refine ⟨now, free ▸ settled, Or.inl ⟨Or.inl rfl, written⟩, ?_, ?_, by rintro _ _ _ ⟨⟩⟩
          · rintro snapshot (lock | lock) <;> cases lock
          · exact fun snapshot member => (realizes.captured snapshot member).mono reach.acts.grows
      | crashed disk =>
          rcases meets with ⟨⟨k, ⟨-, b, reach, now, -⟩, recovers⟩, agreed⟩
          rcases now.rests reach (Or.inl recovers) (agreed.mono reach.acts.grows) with
            ⟨c, further, rests⟩
          exact ⟨c, further, rests, trivial⟩
    · exact idle_simulated live realizes inv
  · exact idle_simulated live realizes inv

theorem persistSave_simulated (errorless : Errorless fates) :
    Host.Simulates setting v a host .persistSave
      (p.step (setting.config v) setting.codec host fates .persistSave) := by
  simp only [Proc.step]
  split
  · rename_i snapshot checked
    rcases realizes.pending snapshot (Or.inl checked) with ⟨worth, agreed⟩
    have durable : Durable host.disk p.node.snapshot p.node := by
      have files := realizes.files
      simp only [Proc.base, checked] at files
      exact files.durable
    have kept : Proc.Realizes { p with persistMu := .saved snapshot } a setting v
        { host.disk with snapshot := some snapshot } := by
      refine ⟨realizes.node, realizes.accounts,
        Or.inl ⟨Or.inr (realizes.node.ready inv agreed worth), durable.hardState, rfl,
          durable.records⟩, ?_, realizes.captured, by rintro _ _ _ ⟨⟩⟩
      rintro other (lock | lock) <;> cases lock
      exact ⟨worth, agreed⟩
    have saved : (perform (StoreOp.saveSnapshot snapshot)).wp store
        (fun ok disk => ok = true ∧ disk = { host.disk with snapshot := some snapshot })
        (fun disk => disk = host.disk ∨ disk = { host.disk with snapshot := some snapshot })
        host.disk := by
      refine ⟨⟨rfl, rfl⟩, fun reached => ?_⟩
      cases reached with
      | zero => exact Or.inl rfl
      | succ reached => exact Or.inr rfl
    have meets := wp_exec _ host.disk fates saved errorless
    unfold Host.run
    generalize (perform (StoreOp.saveSnapshot snapshot)).exec store host.disk fates =
      ending at meets ⊢
    cases ending with
    | done ok disk =>
        rcases meets with ⟨rfl, rfl⟩
        exact ⟨a, .refl inv, kept, trivial⟩
    | crashed disk =>
        have stopped : ∃ c, Reaches setting v a c ∧ Dormant c setting.codec v disk := by
          rcases meets with rfl | rfl
          · exact realizes.stops (.refl inv)
          · exact kept.stops (.refl inv)
        rcases stopped with ⟨c, reach, rests⟩
        exact ⟨c, reach, rests, trivial⟩
  · exact idle_simulated live realizes inv

theorem persistEnd_simulated (errorless : Errorless fates) :
    Host.Simulates setting v a host .persistEnd
      (p.step (setting.config v) setting.codec host fates .persistEnd) := by
  simp only [Proc.step]
  split
  · rename_i snapshot held
    rcases realizes.pending snapshot (Or.inr held) with ⟨worth, agreed⟩
    have files := realizes.files
    simp only [Proc.base, held] at files
    have log := realizes.node.compactedLog inv agreed worth
    have kept (disk : Disk) (durable : Durable disk snapshot (p.node.compacted snapshot)) :
        Proc.Realizes { p with node := p.node.compacted snapshot, persistMu := .free } a setting v
          disk := by
      refine ⟨realizes.node.compacted inv agreed worth, realizes.accounts.compacted log,
        Or.inl ⟨Or.inl rfl, durable⟩, ?_, realizes.captured, by rintro _ _ _ ⟨⟩⟩
      rintro other (lock | lock) <;> cases lock
    have compacted : (p.node.compact snapshot).wp store
        (fun m disk => m = p.node.compacted snapshot ∧ Durable disk snapshot m)
        (fun disk => disk = host.disk ∨ Durable disk snapshot (p.node.compacted snapshot))
        host.disk :=
      Node.compact_tracked realizes.node.wf worth files.saved files.hardState (Or.inl rfl)
        fun disk durable => Or.inr durable
    have meets := wp_exec _ host.disk fates compacted errorless
    unfold Host.run
    generalize (p.node.compact snapshot).exec store host.disk fates = ending at meets ⊢
    cases ending with
    | done m disk =>
        rcases meets with ⟨rfl, durable⟩
        exact ⟨a, .refl inv, kept disk durable, trivial⟩
    | crashed disk =>
        have stopped : ∃ c, Reaches setting v a c ∧ Dormant c setting.codec v disk := by
          rcases meets with rfl | durable
          · exact realizes.stops (.refl inv)
          · exact (kept disk durable).stops (.refl inv)
        rcases stopped with ⟨c, reach, rests⟩
        exact ⟨c, reach, rests, trivial⟩
  · exact idle_simulated live realizes inv

theorem persistCheck_simulated {position : Nat} :
    Host.Simulates setting v a host (.persistCheck position)
      (p.step (setting.config v) setting.codec host fates (.persistCheck position)) := by
  simp only [Proc.step]
  split
  · rename_i snapshot free found
    have agreed := realizes.captured snapshot (List.mem_of_getElem? found)
    have rest : ∀ other ∈ p.captured.eraseIdx position, Agreed a other :=
      fun other member => realizes.captured other (List.mem_of_mem_eraseIdx member)
    split
    · rename_i worth
      refine ⟨a, .refl inv, realizes.relock ?_ ?_ rest (by rintro _ _ _ ⟨⟩), trivial⟩
      · simp only [Proc.base, free]
      · rintro other (lock | lock) <;> cases lock
        exact ⟨worth, agreed⟩
    · exact ⟨a, .refl inv, realizes.relock rfl realizes.pending rest realizes.decoding, trivial⟩
  · exact idle_simulated live realizes inv

theorem applyNext_simulated :
    Host.Simulates setting v a host .applyNext
      (p.step (setting.config v) setting.codec host fates .applyNext) := by
  simp only [Proc.step]
  split
  · rename_i free
    have accounts : p.node.Accounts .free := free ▸ realizes.accounts
    have same : p.node.applyNext.1 = p.node := by rw [Node.applyNext_eq realizes.node.wf]
    split
    · rename_i m outcome
      rw [outcome] at same
      subst same
      exact ⟨a, .refl inv, realizes, trivial⟩
    · rename_i m entry outcome
      have taken : p.node.applyNext.2 = some entry := by rw [outcome]
      rw [outcome] at same
      subst same
      exact ⟨a, .refl inv, { realizes with accounts := accounts.applyNext realizes.node taken },
        trivial⟩
  · exact idle_simulated live realizes inv

theorem applyEntry_simulated :
    Host.Simulates setting v a host .applyEntry
      (p.step (setting.config v) setting.codec host fates .applyEntry) := by
  simp only [Proc.step]
  split
  · rename_i entry held
    have accounts : p.node.Accounts (.applying entry) := held ▸ realizes.accounts
    have now : (p.node.applyEntry entry).1.Realizes a setting.codec v :=
      realizes.node.congr ⟨rfl, rfl, rfl, rfl, rfl⟩ rfl rfl rfl rfl rfl
    refine ⟨a, .refl inv, ⟨now, accounts.applyEntry, ?_, realizes.pending, realizes.captured,
      realizes.decoding⟩, trivial⟩
    exact (stored_tracks p.base).same realizes.files ⟨rfl, rfl, rfl⟩ rfl
  · exact idle_simulated live realizes inv

theorem applyDone_simulated :
    Host.Simulates setting v a host .applyDone
      (p.step (setting.config v) setting.codec host fates .applyDone) := by
  simp only [Proc.step]
  split
  · rename_i entry result held
    have accounts : p.node.Accounts (.applied entry result) := held ▸ realizes.accounts
    rcases accounts.stillApplies realizes.node with ⟨index, still⟩
    have after : (p.node.applyDone (setting.config v) entry result).1 =
        Node.finishWaitersLocked { p.node with lastApplied := entry.index } entry.index result := by
      rw [Node.applyDone_eq, if_pos still]
    have more : p.node.lastApplied ≤ entry.index := by omega
    refine ⟨a, .refl inv, ⟨realizes.node.applyDone accounts, accounts.applyDone realizes.node, ?_,
      ?_, ?_, realizes.decoding⟩, trivial⟩
    · rw [after]
      exact realizes.files.applied rfl rfl rfl more
    · intro snapshot pending
      rcases realizes.pending snapshot pending with ⟨worth, agreed⟩
      refine ⟨?_, agreed⟩
      rw [after]
      simp only [Node.worthPersisting, decide_eq_true_eq] at worth ⊢
      exact ⟨worth.1, worth.2.trans more⟩
    · intro snapshot member
      rcases List.mem_append.mp member with old | new
      · exact realizes.captured snapshot old
      · exact Node.applyDone_agreed realizes.node accounts (Option.mem_toList.mp new)
  · exact idle_simulated live realizes inv

end Sections

theorem step_simulated (live : host.proc = some p) (realizes : p.Realizes a setting v host.disk)
    (inv : Consensus.Inv LogEntry.term setting.Quorum a) (member : v ∈ setting.members)
    (follows : action.Follows host a setting v) (errorless : Errorless fates) :
    Host.Simulates setting v a host action
      (p.step (setting.config v) setting.codec host fates action) := by
  have start : p.node.Passes setting v a p.node := ⟨.refl _, a, .refl inv, realizes.node⟩
  have files := realizes.files
  have named : v ≠ "" := (Finset.mem_erase.mp member).1
  have quiet (m : Node) (output : Output) (now : m.Realizes a setting.codec v)
      (same : SameLog p.node m) (steady : p.node.Steady m)
      (hardState : m.hardState m.commitIndex = p.node.hardState p.node.commitIndex)
      (warranted : output.Warranted host action v a) :
      Host.Simulates setting v a host action (host.withNode p m, output) :=
    ⟨a, .refl inv, realizes.quiet inv now same steady hardState, warranted⟩
  cases action with
  | requestVote req =>
      apply run_simulated realizes (Node.handleRequestVote_attains start follows files) errorless
      exact fun value disk b reach _ now cast => ⟨now, req, rfl, cast⟩
  | appendEntries req =>
      apply run_simulated realizes (Node.handleAppendEntries_attains start follows files) errorless
      exact fun value disk b reach _ now accepted => ⟨now, req, rfl, accepted⟩
  | installSnapshot number req =>
      exact installSnapshot_simulated live realizes inv follows errorless
  | installDecoded => exact installDecoded_simulated live realizes inv errorless
  | propose command =>
      apply run_simulated realizes
        (section_of_passes (Node.proposeAppend_attains rfl member start files)) errorless
      exact fun value disk b reach _ now _ => ⟨now, trivial⟩
  | cancel index chan =>
      exact quiet _ _ (realizes.node.congr ⟨rfl, rfl, rfl, rfl, rfl⟩ rfl rfl rfl rfl rfl)
        ⟨rfl, rfl, rfl, rfl, rfl⟩ ⟨rfl, rfl, rfl, rfl, le_rfl⟩ rfl trivial
  | startElection =>
      apply run_simulated realizes
        (Node.startElection_attains rfl named (follows p live) start files) errorless
      intro value disk b reach _ now stands
      refine ⟨now, ?_⟩
      rcases value with ⟨m, request⟩
      cases request with
      | none => trivial
      | some req => exact stands req rfl
  | becomeLeader term =>
      rcases follows with ⟨electors, enough, won⟩
      apply run_simulated realizes
        (section_of_passes (Node.becomeLeader_attains rfl member enough won start files)) errorless
      exact fun value disk b reach _ now _ => ⟨now, trivial⟩
  | stepDown term leaderID =>
      apply run_simulated realizes
        (section_of_passes (Node.stepDown_tracked (stored_tracks p.base) files start
          (start.follow term leaderID))) errorless
      exact fun value disk b reach _ now _ => ⟨now, trivial⟩
  | replicate peer =>
      rcases Node.replicateToPeer_eq p.node (setting.config v) peer with ⟨⟨nextIndex, same⟩, sent⟩
      have advanced := quiet { p.node with nextIndex := nextIndex }
        (.dispatch peer (p.node.replicateToPeer (setting.config v) peer).2)
        (realizes.node.congr ⟨rfl, rfl, rfl, rfl, rfl⟩ rfl rfl rfl rfl rfl)
        ⟨rfl, rfl, rfl, rfl, rfl⟩ ⟨rfl, rfl, rfl, rfl, le_rfl⟩ rfl
      rw [← same] at advanced
      apply advanced
      cases dispatch : (p.node.replicateToPeer (setting.config v) peer).2 with
      | quit => trivial
      | retry => trivial
      | append req => exact realizes.node.append inv (dispatch ▸ sent)
      | snapshot term snapshot => exact realizes.node.ships inv (dispatch ▸ sent)
  | replicateReply peer req resp =>
      apply run_simulated realizes
        (section_of_passes (Node.replicateReply_attains rfl member follows start files)) errorless
      intro value disk b reach _ now _
      refine ⟨now, ?_⟩
      rcases value with ⟨m, attempt⟩
      cases attempt <;> trivial
  | snapshotReply term resp =>
      apply run_simulated realizes
        (section_of_passes (Node.sendSnapshotReply_tracked (stored_tracks p.base) files start
          fun _ => start.follow resp.term "")) errorless
      exact fun value disk b reach _ now _ =>
        ⟨now, term, resp, rfl, fun both => (Bool.and_eq_true_iff.mp both).2⟩
  | snapshotSent peer term snapIdx =>
      simp only [Proc.step, Node.snapshotSent]
      split
      · rename_i current
        have acked : Acked a peer p.node.currentTerm snapIdx := by
          rw [current.2]
          exact follows
        exact quiet _ _ (realizes.node.acknowledge acked) ⟨rfl, rfl, rfl, rfl, rfl⟩
          ⟨rfl, rfl, rfl, rfl, le_rfl⟩ rfl
          trivial
      · exact quiet _ _ realizes.node ⟨rfl, rfl, rfl, rfl, rfl⟩ (.refl _) rfl trivial
  | applyNext => exact applyNext_simulated live realizes inv
  | applyEntry => exact applyEntry_simulated live realizes inv
  | applyDone => exact applyDone_simulated live realizes inv
  | persistCheck position => exact persistCheck_simulated live realizes inv
  | persistSave => exact persistSave_simulated live realizes inv errorless
  | persistEnd => exact persistEnd_simulated live realizes inv errorless
  | stop =>
      simp only [Proc.step, Node.stop]
      split
      · exact quiet _ _ realizes.node ⟨rfl, rfl, rfl, rfl, rfl⟩ (.refl _) rfl trivial
      · exact quiet _ _ (realizes.node.congr ⟨rfl, rfl, rfl, rfl, rfl⟩ rfl rfl rfl rfl rfl)
          ⟨rfl, rfl, rfl, rfl, rfl⟩ ⟨rfl, rfl, rfl, rfl, le_rfl⟩ rfl trivial
  | crash =>
      rcases realizes.stops (.refl inv) with ⟨c, reach, rests⟩
      exact ⟨c, reach, rests, trivial⟩
  | restart => exact idle_simulated live realizes inv

end Proc

namespace Host

variable {setting : Setting} {a : Ideal} {v : NodeId} {host : Host} {fates : List Fate}
  {action : Action}

theorem restored_accounts {loaded : Loaded}
    (realizes : (Node.restored loaded).Realizes a setting.codec v) :
    (Node.restored loaded).Accounts .free := by
  have contiguous : Contiguous loaded.snapshot.lastIncludedIndex loaded.entries :=
    realizes.wf.contiguous
  have agreed : Agreed a loaded.snapshot := realizes.snapshot
  let replayed :=
    loaded.entries.takeWhile fun entry => entry.index ≤ (Node.restored loaded).commitIndex
  have front : replayed <+: loaded.entries := List.takeWhile_prefix _
  have applied : (Node.restored loaded).lastApplied = loaded.snapshot.history.length +
      replayed.length := by
    rw [agreed.length]
    exact (contiguous.initial front).lastIndex
  have log : (Node.restored loaded).fullLog = loaded.snapshot.history ++ loaded.entries := rfl
  have data : KVStateMachine.restore loaded.snapshot.data =
      KVStateMachine.replay ∅ loaded.snapshot.history := by
    have restored := restore_foldOf loaded.snapshot.history
    rw [← agreed.folded] at restored
    exact restored
  refine ⟨?_, ?_, nofun⟩
  · calc (Node.restored loaded).history = loaded.snapshot.history ++ replayed := rfl
      _ = loaded.snapshot.history ++ loaded.entries.take replayed.length := by
        rw [List.prefix_iff_eq_take.mp front, List.length_take_of_le front.length_le]
      _ = (Node.restored loaded).fullLog.take (Node.restored loaded).lastApplied ++ [] := by
        rw [log, applied, List.take_length_add_append, List.append_nil]
  · calc (Node.restored loaded).sm
        = KVStateMachine.replay (KVStateMachine.restore loaded.snapshot.data) replayed := rfl
      _ = KVStateMachine.replay ∅ (loaded.snapshot.history ++ replayed) := by
        rw [data, KVStateMachine.replay_append]

theorem restart_simulated (rests : Dormant a setting.codec v host.disk) (down : host.proc = none)
    (inv : Consensus.Inv LogEntry.term setting.Quorum a) (errorless : Errorless fates) :
    Simulates setting v a host action
      (host.step (setting.config v) setting.codec fates action) := by
  have idle : Simulates setting v a host action (host, .nothing) := by
    refine ⟨a, .refl inv, ?_, trivial⟩
    unfold Host.Realizes
    rw [down]
    exact rests
  unfold Host.step
  rw [down]
  simp only
  split
  · rename_i loaded loads
    rcases rests.load inv loads with ⟨realizes, behind⟩
    have attained := newNode_left loads realizes.wf.contiguous behind
    have meets := wp_exec _ host.disk fates attained errorless
    unfold Host.run
    generalize (Node.newNode loaded).exec store host.disk fates = ending at meets ⊢
    cases ending with
    | done result disk =>
        rcases meets with ⟨rfl, durable⟩
        refine ⟨a, .refl inv, ?_, trivial⟩
        refine ⟨realizes, restored_accounts realizes, Or.inl ⟨Or.inl rfl, durable⟩, ?_, nofun,
          nofun⟩
        rintro snapshot (lock | lock) <;> cases lock
    | crashed disk =>
        rcases meets with ⟨recovers, same⟩
        refine ⟨a, .refl inv, ⟨?_, Node.restored loaded, rfl, realizes, Or.inl recovers⟩, trivial⟩
        rw [same]
        exact realizes.snapshot
  · exact idle

/-- Every event of a machine is matched by moves of its node. -/
theorem step_simulated (realizes : host.Realizes a setting v)
    (inv : Consensus.Inv LogEntry.term setting.Quorum a) (member : v ∈ setting.members)
    (follows : action.Follows host a setting v) (errorless : Errorless fates) :
    Simulates setting v a host action
      (host.step (setting.config v) setting.codec fates action) := by
  unfold Host.Realizes at realizes
  cases live : host.proc with
  | none =>
      rw [live] at realizes
      exact restart_simulated realizes live inv errorless
  | some p =>
      rw [live] at realizes
      have stepped := Proc.step_simulated live realizes inv member follows errorless
      unfold Host.step
      rw [live]
      exact stepped

end Host

end GoRaftKV.Raft
