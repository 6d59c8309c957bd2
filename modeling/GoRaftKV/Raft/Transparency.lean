import GoRaftKV.Raft.Compaction
import GoRaftKV.Raft.Recoverable

/-! Two copies of a process, fed the same requests while each compacts its log at its own moments.
Both are compared with a third one that takes every step but never compacts. -/

namespace GoRaftKV.Raft

open Storage Library Program

namespace Node

variable {k n : Node} {snapshot : Snapshot}

theorem Captured.bounds (captured : k.Captured snapshot)
    (later : k.snapshot.lastIncludedIndex < snapshot.lastIncludedIndex) : k.Bounds snapshot where
  later := later.le
  applied := captured.1
  own := fun same => absurd same later.ne'
  inside := captured.2

theorem Trims.again (trims : k.Trims n) (captured : k.Captured snapshot)
    (worth : n.worthPersisting snapshot = true) : k.Trims (n.compacted snapshot) := by
  rcases trims with ⟨wf, s, bounds, rfl⟩
  simp only [worthPersisting, decide_eq_true_eq] at worth
  have newer : s.lastIncludedIndex < snapshot.lastIncludedIndex := worth.1
  exact ⟨wf, snapshot, captured.bounds (bounds.later.trans_lt newer), compacted_compacted newer.le⟩

theorem Trims.captured (trims : k.Trims n) (captured : n.Captured snapshot)
    (later : n.snapshot.lastIncludedIndex < snapshot.lastIncludedIndex) : k.Captured snapshot := by
  rcases trims with ⟨wf, s, bounds, rfl⟩
  refine ⟨captured.1, fun _ => ?_⟩
  have newer : s.lastIncludedIndex < snapshot.lastIncludedIndex := later
  rw [← termAtLocked_trimmed wf bounds newer.le]
  exact captured.2 later

/-- The original after a section that it and its copy have run, and the copy after it. -/
structure Twin (k after trimmed : Node) : Prop where
  upholds : k.Upholds after
  trims : after.Trims trimmed

variable (cfg : Config)

theorem handleRequestVote_twin (trims : k.Trims n) (req : RequestVoteRequest) :
    Twin k (k.handleRequestVote cfg req).value.1 (n.handleRequestVote cfg req).value.1 ∧
      (n.handleRequestVote cfg req).value.2 = (k.handleRequestVote cfg req).value.2 := by
  rcases trims with ⟨wf, s, bounds, rfl⟩
  have moves : Moves cfg k (k.handleRequestVote cfg req).value.1 :=
    (handleRequestVote_moves req).value
  rw [handleRequestVote_compacted wf bounds req]
  exact ⟨⟨moves.upholds wf, bounds.moves wf moves rfl⟩, rfl⟩

theorem handleAppendEntries_twin (trims : k.Trims n) {req : AppendEntriesRequest}
    (beyond : n.snapshot.lastIncludedIndex ≤ req.prevLogIndex)
    (ordered : Contiguous req.prevLogIndex req.entries) :
    Twin k (k.handleAppendEntries cfg req).value.1 (n.handleAppendEntries cfg req).value.1 ∧
      SameAnswer (k.handleAppendEntries cfg req).value.2
        (n.handleAppendEntries cfg req).value.2 := by
  rcases trims with ⟨wf, s, bounds, rfl⟩
  have moves : Moves cfg k (k.handleAppendEntries cfg req).value.1 :=
    (handleAppendEntries_moves wf (spliceSafe_of_contiguous req.prevLogIndex ordered)).value
  rcases handleAppendEntries_compacted wf bounds beyond ordered with ⟨commutes, answer⟩
  exact ⟨⟨moves.upholds wf, bounds.moves wf moves commutes⟩, answer⟩

theorem handleInstallSnapshot_twin (trims : k.Trims n) (req : InstallSnapshotRequest) :
    Twin k (k.handleInstallSnapshot cfg req).value.1 (n.handleInstallSnapshot cfg req).value.1 ∧
      (n.handleInstallSnapshot cfg req).value.2 = (k.handleInstallSnapshot cfg req).value.2 := by
  rcases trims with ⟨wf, s, bounds, rfl⟩
  have moves : Moves cfg k (k.handleInstallSnapshot cfg req).value.1 :=
    (handleInstallSnapshot_moves req).value
  rw [handleInstallSnapshot_compacted req]
  exact ⟨⟨moves.upholds wf, bounds.moves wf moves rfl⟩, rfl⟩

theorem clearPending_twin (trims : k.Trims n) :
    Twin k { k with pendingSnapshot := none } { n with pendingSnapshot := none } := by
  rcases trims with ⟨wf, s, bounds, rfl⟩
  have upholds : k.Upholds { k with pendingSnapshot := none } := .of_same wf rfl rfl rfl rfl
  exact ⟨upholds, bounds.trims wf upholds rfl rfl⟩

variable {cfg} in
theorem InstallEnd.upholds {m : Node} {index : Nat} (ending : InstallEnd cfg index n m)
    (wf : WellFormed n) : n.Upholds m := by
  cases ending with
  | unchanged _ moves => exact moves.upholds wf
  | installed m snapshot moves follows commit newer _ =>
      have before := moves.upholds wf
      exact before.trans (upholds_install before.wellFormed newer)

theorem installDecoded_twin (trims : k.Trims n) (req : InstallSnapshotRequest) (body : Bytes)
    (data : Option KVMap) :
    Twin k (k.installDecoded cfg req body data).value.1
      (n.installDecoded cfg req body data).value.1 ∧ (n.installDecoded cfg req body data).value.2 =
      (k.installDecoded cfg req body data).value.2 := by
  rcases trims with ⟨wf, s, bounds, rfl⟩
  have ending : InstallEnd cfg req.lastIncludedIndex k
      (k.installDecoded cfg req body data).value.1 :=
    (installDecoded_ends req body data).value
  rcases installDecoded_trims wf bounds req body data with ⟨trims, answer⟩
  exact ⟨⟨ending.upholds wf, trims⟩, answer⟩

theorem proposeAppend_twin (trims : k.Trims n) (command : Command) (chan : ChanId) :
    Twin k (k.proposeAppend cfg command chan).value.1 (n.proposeAppend cfg command chan).value.1 ∧
      (n.proposeAppend cfg command chan).value.2 = (k.proposeAppend cfg command chan).value.2 := by
  rcases trims with ⟨wf, s, bounds, rfl⟩
  rw [proposeAppend_compacted wf bounds command chan]
  rcases (@proposeAppend_moves k cfg command chan).value with ⟨moves, -⟩ | ⟨-, -, moves⟩
  · exact ⟨⟨moves.upholds wf, bounds.moves wf moves rfl⟩, rfl⟩
  · have grown := Upholds.snoc (m := k.accepted cfg
      { index := k.lastIndexLocked + 1, term := k.currentTerm, command := command } chan) wf rfl rfl
        rfl rfl rfl
    have upholds := grown.trans (moves.upholds grown.wellFormed)
    exact ⟨⟨upholds, bounds.trims wf upholds moves.snapshot rfl⟩, rfl⟩

theorem applyNext_twin (trims : k.Trims n) :
    Twin k k.applyNext.1 n.applyNext.1 ∧ n.applyNext.2 = k.applyNext.2 := by
  rcases trims with ⟨wf, s, bounds, rfl⟩
  rw [applyNext_compacted wf bounds, applyNext_eq wf]
  exact ⟨⟨.refl wf, wf, s, bounds, rfl⟩, rfl⟩

theorem applyEntry_twin (trims : k.Trims n) (entry : LogEntry) :
    Twin k (k.applyEntry entry).1 (n.applyEntry entry).1 ∧
      (n.applyEntry entry).2 = (k.applyEntry entry).2 := by
  rcases trims with ⟨wf, s, bounds, rfl⟩
  have upholds : k.Upholds (k.applyEntry entry).1 := .of_same wf rfl rfl rfl rfl
  exact ⟨⟨upholds, bounds.trims wf upholds rfl rfl⟩, rfl⟩

theorem applyDone_twin (trims : k.Trims n) (entry : LogEntry) (result : ApplyResult) :
    Twin k (k.applyDone cfg entry result).1 (n.applyDone cfg entry result).1 := by
  rcases trims with ⟨wf, s, bounds, rfl⟩
  rw [applyDone_compacted wf bounds, applyDone_eq]
  split
  · rename_i still
    have upholds := @upholds_applied k wf entry result still
    exact ⟨upholds, bounds.trims wf upholds rfl rfl⟩
  · exact ⟨.refl wf, wf, s, bounds, rfl⟩

theorem Trims.currentTerm (trims : k.Trims n) : n.currentTerm = k.currentTerm := by
  rcases trims with ⟨-, s, -, rfl⟩
  rfl

end Node

/-- The outputs agree; an answer to AppendEntries may hint at another index to retry from. -/
def Output.Alike : Output → Output → Prop
  | .append first, .append second => Node.SameAnswer first second
  | first, second => second = first

/-- The lock of a copy: it may be held by a compaction of its own. -/
def PersistLock.Mirrors (captured : Snapshot → Prop) (original : PersistLock) : PersistLock → Prop
  | .checked snapshot => original = .free ∧ captured snapshot
  | .saved snapshot => original = .free ∧ captured snapshot
  | copy => copy = original

/-- `p` does what `k` does and compacts its log besides. -/
structure Proc.Mirrors (k p : Proc) : Prop where
  node : k.node.Trims p.node
  applyMu : p.applyMu = k.applyMu
  persistMu : k.persistMu.Mirrors k.node.Captured p.persistMu
  captured : ∀ snapshot ∈ p.captured, k.node.Captured snapshot

/-- The same of two machines. -/
structure Host.Mirrors (original copy : Host) : Prop where
  chans : copy.chans = original.chans
  procs : ∃ k p, original.proc = some k ∧ copy.proc = some p ∧ k.Mirrors p

/-- A step of both ends in mirrored machines and in answers that agree. -/
def Agree (original copy : Host × Output) : Prop :=
  original.1.Mirrors copy.1 ∧ original.2.Alike copy.2

variable {cfg : Config} {codec : SnapshotCodec} {original copy : Host} {k p : Proc}

theorem Output.Alike.rfl {output : Output} : output.Alike output := by
  cases output <;> first | exact ⟨Eq.refl _, Eq.refl _⟩ | exact Eq.refl _

theorem Output.Alike.join {output first second : Output} (left : output.Alike first)
    (right : output.Alike second) : first.Alike second := by
  cases output with
  | append resp =>
      cases first with
      | append one =>
          cases second with
          | append two => exact ⟨right.1.trans left.1.symm, right.2.trans left.2.symm⟩
          | _ => cases right
      | _ => cases left
  | _ =>
      cases left
      cases right
      exact .rfl

theorem PersistLock.Mirrors.mono {captured kept : Snapshot → Prop} {lock held : PersistLock}
    (mirrors : lock.Mirrors captured held) (mono : ∀ snapshot, captured snapshot → kept snapshot) :
    lock.Mirrors kept held := by
  cases held with
  | free => exact mirrors
  | checked snapshot => exact ⟨mirrors.1, mono snapshot mirrors.2⟩
  | saved snapshot => exact ⟨mirrors.1, mono snapshot mirrors.2⟩
  | decoding call req body => exact mirrors

namespace Proc.Mirrors

theorem next (mirrors : k.Mirrors p) {m n : Node} (twin : Node.Twin k.node m n) :
    Mirrors { k with node := m } { p with node := n } where
  node := twin.trims
  applyMu := mirrors.applyMu
  persistMu := mirrors.persistMu.mono fun _ captured => captured.upheld mirrors.node.wf twin.upholds
  captured :=
    fun snapshot member => (mirrors.captured snapshot member).upheld mirrors.node.wf twin.upholds

theorem applying (mirrors : k.Mirrors p) (lock : ApplyLock) :
    Mirrors { k with applyMu := lock } { p with applyMu := lock } :=
  ⟨mirrors.node, rfl, mirrors.persistMu, mirrors.captured⟩

theorem persisting (mirrors : k.Mirrors p) (lock : PersistLock)
    (same : lock.Mirrors k.node.Captured lock) :
    Mirrors { k with persistMu := lock } { p with persistMu := lock } :=
  ⟨mirrors.node, mirrors.applyMu, same, mirrors.captured⟩

end Proc.Mirrors

namespace Host

theorem run_value {α β : Type} {program : Program StoreOp α} {other : Program StoreOp β}
    {finish : α → Host × Output} {ending : β → Host × Output}
    (agree : Agree (finish program.value) (ending other.value)) :
    Agree (original.run program [] finish) (copy.run other [] ending) := by
  have ⟨disk, ran⟩ : ∃ disk, program.exec store original.disk [] = .done program.value disk :=
    exec_value _ _
  have ⟨image, did⟩ : ∃ image, other.exec store copy.disk [] = .done other.value image :=
    exec_value _ _
  unfold Host.run
  rw [ran, did]
  rcases agree with ⟨⟨chans, procs⟩, alike⟩
  exact ⟨⟨chans, procs⟩, alike⟩

end Host

/-- The requests, proposals and apply steps that may be handed to a process at this moment. -/
def Proc.Takes (p : Proc) : Action → Prop
  | .appendEntries req => p.node.snapshot.lastIncludedIndex ≤ req.prevLogIndex
  | .installSnapshot _ _ => p.persistMu = .free
  | .requestVote _ | .installDecoded | .propose _ | .applyNext | .applyEntry | .applyDone => True
  | _ => False

def Action.Ordered : Action → Prop
  | .appendEntries req => Contiguous req.prevLogIndex req.entries
  | _ => True

def Action.Compacts : Action → Prop
  | .persistCheck _ | .persistSave | .persistEnd => True
  | _ => False

theorem Node.applyDone_snapshot {n : Node} (entry : LogEntry) (result : ApplyResult) :
    (n.applyDone cfg entry result).1.snapshot = n.snapshot := by
  rw [applyDone_eq]
  split <;> rfl

namespace Proc.Mirrors

theorem applyDone (mirrors : k.Mirrors p) (entry : LogEntry) (result : ApplyResult) :
    Mirrors
      { k with
        node := (k.node.applyDone cfg entry result).1, applyMu := .free
        captured := k.captured ++ (k.node.applyDone cfg entry result).2.toList }
      { p with
        node := (p.node.applyDone cfg entry result).1, applyMu := .free
        captured := p.captured ++ (p.node.applyDone cfg entry result).2.toList } := by
  have twin := Node.applyDone_twin cfg mirrors.node entry result
  have next := mirrors.next twin
  refine ⟨next.node, rfl, next.persistMu, fun snapshot member => ?_⟩
  rcases List.mem_append.mp member with old | new
  · exact next.captured snapshot old
  · have taken := Option.mem_toList.mp new
    apply twin.trims.captured (Node.applyDone_captured taken)
    rw [Node.applyDone_snapshot, Node.applyDone_next taken]
    exact Nat.lt_succ_of_le mirrors.node.wellFormed.compacted

theorem installSnapshot (mirrors : k.Mirrors p) (chans : copy.chans = original.chans) (call : Nat)
    (req : InstallSnapshotRequest) (idle : p.persistMu = .free) :
    Agree (k.step cfg codec original [] (.installSnapshot call req))
      (p.step cfg codec copy [] (.installSnapshot call req)) := by
  have free : k.persistMu = .free := by
    have lock := mirrors.persistMu
    rw [idle] at lock
    exact lock.symm
  rcases Node.handleInstallSnapshot_twin cfg mirrors.node req with ⟨twin, answer⟩
  simp only [Proc.step, free, idle]
  apply Host.run_value
  generalize (k.node.handleInstallSnapshot cfg req).value = first at twin answer ⊢
  generalize (p.node.handleInstallSnapshot cfg req).value = second at twin answer ⊢
  rcases first with ⟨m, progress⟩
  rcases second with ⟨n, same⟩
  obtain rfl : same = progress := answer
  have next := mirrors.next twin
  cases same with
  | answer resp => exact ⟨⟨chans, _, _, rfl, rfl, next⟩, rfl⟩
  | decode body =>
      exact ⟨⟨chans, _, _, rfl, rfl, next.persisting (.decoding call req body) rfl⟩, rfl⟩

theorem decoding (mirrors : k.Mirrors p) :
    (∃ call req body, k.persistMu = .decoding call req body ∧
      p.persistMu = .decoding call req body) ∨
        ((∀ call req body, k.persistMu ≠ .decoding call req body) ∧ ∀ call req body,
          p.persistMu ≠ .decoding call req body) := by
  have lock := mirrors.persistMu
  cases held : p.persistMu with
  | decoding call req body =>
      rw [held] at lock
      exact Or.inl ⟨call, req, body, lock.symm, rfl⟩
  | free =>
      rw [held] at lock
      have free : k.persistMu = .free := lock.symm
      exact Or.inr ⟨by simp [free], by simp⟩
  | checked snapshot =>
      rw [held] at lock
      exact Or.inr ⟨by simp [lock.1], by simp⟩
  | saved snapshot =>
      rw [held] at lock
      exact Or.inr ⟨by simp [lock.1], by simp⟩

theorem installDecoded (mirrors : k.Mirrors p) (host : original.Mirrors copy) :
    Agree (k.step cfg codec original [] .installDecoded)
      (p.step cfg codec copy [] .installDecoded) := by
  have idle : Agree (original, .nothing) (copy, .nothing) := ⟨host, rfl⟩
  rcases mirrors.decoding with ⟨call, req, body, held, same⟩ | ⟨none, neither⟩
  · simp only [Proc.step, held, same]
    split
    · have next := mirrors.next (Node.clearPending_twin mirrors.node)
      refine ⟨⟨host.chans, _, _, rfl, rfl, next.persisting .free rfl⟩, ?_⟩
      rw [mirrors.node.currentTerm]
      exact rfl
    · rename_i data decoded
      by_cases free : k.applyMu = .free
      · rw [if_pos free, if_pos (mirrors.applyMu.trans free)]
        rcases Node.installDecoded_twin cfg mirrors.node req body data with ⟨twin, answer⟩
        apply Host.run_value
        have next := mirrors.next twin
        exact ⟨⟨host.chans, _, _, rfl, rfl, next.persisting .free rfl⟩,
          congrArg (Output.snapshot call) answer⟩
      · rw [if_neg free, if_neg (mirrors.applyMu ▸ free)]
        exact idle
  · simp only [Proc.step]
    exact idle

theorem step (mirrors : k.Mirrors p) (live : original.proc = some k) (alive : copy.proc = some p)
    (chans : copy.chans = original.chans) {action : Action} (takes : p.Takes action)
    (ordered : action.Ordered) :
    Agree (k.step cfg codec original [] action) (p.step cfg codec copy [] action) := by
  have host : original.Mirrors copy := ⟨chans, k, p, live, alive, mirrors⟩
  have idle : Agree (original, .nothing) (copy, .nothing) := ⟨host, rfl⟩
  cases action with
  | requestVote req =>
      rcases Node.handleRequestVote_twin cfg mirrors.node req with ⟨twin, answer⟩
      apply Host.run_value
      exact ⟨⟨chans, _, _, rfl, rfl, mirrors.next twin⟩, congrArg Output.vote answer⟩
  | appendEntries req =>
      rcases Node.handleAppendEntries_twin cfg mirrors.node takes ordered with ⟨twin, answer⟩
      apply Host.run_value
      exact ⟨⟨chans, _, _, rfl, rfl, mirrors.next twin⟩, answer⟩
  | installSnapshot call req => exact mirrors.installSnapshot chans call req takes
  | installDecoded => exact mirrors.installDecoded host
  | propose command =>
      rcases Node.proposeAppend_twin cfg mirrors.node command original.chans with ⟨twin, answer⟩
      simp only [Proc.step, chans]
      apply Host.run_value
      refine ⟨⟨rfl, _, _, rfl, rfl, mirrors.next twin⟩, ?_⟩
      rw [answer, mirrors.node.currentTerm]
      exact rfl
  | applyNext =>
      rcases Node.applyNext_twin mirrors.node with ⟨twin, next⟩
      simp only [Proc.step, mirrors.applyMu]
      split
      · generalize k.node.applyNext = first at twin next ⊢
        generalize p.node.applyNext = second at twin next ⊢
        rcases first with ⟨m, entry⟩
        rcases second with ⟨n, same⟩
        obtain rfl : same = entry := next
        cases same with
        | none => exact ⟨⟨chans, _, _, rfl, rfl, mirrors.next twin⟩, rfl⟩
        | some entry => exact ⟨⟨chans, _, _, rfl, rfl, (mirrors.next twin).applying _⟩, rfl⟩
      · exact idle
  | applyEntry =>
      simp only [Proc.step, mirrors.applyMu]
      split
      · rename_i entry applying
        rcases Node.applyEntry_twin mirrors.node entry with ⟨twin, result⟩
        refine ⟨⟨chans, _, _, rfl, rfl, ?_⟩, rfl⟩
        rw [result]
        exact (mirrors.next twin).applying _
      · exact idle
  | applyDone =>
      simp only [Proc.step, mirrors.applyMu]
      split
      · rename_i entry result applied
        exact ⟨⟨chans, _, _, rfl, rfl, mirrors.applyDone entry result⟩, rfl⟩
      · exact idle
  | _ => exact takes.elim

end Proc.Mirrors

theorem Host.Mirrors.compacting (mirrors : original.Mirrors copy) {action : Action}
    (compacts : action.Compacts) :
    original.Mirrors (copy.step cfg codec [] action).1 := by
  obtain ⟨chans, k, p, live, alive, procs⟩ := mirrors
  have idle : original.Mirrors copy := ⟨chans, k, p, live, alive, procs⟩
  have lock := procs.persistMu
  simp only [Host.step, alive]
  cases action with
  | persistCheck position =>
      simp only [Proc.step]
      split
      · rename_i snapshot held found
        have kept : ∀ other ∈ p.captured.eraseIdx position, k.node.Captured other :=
          fun other member =>
          procs.captured other (List.mem_of_mem_eraseIdx member)
        rw [held] at lock
        have free : k.persistMu = .free := lock.symm
        split
        · have own := procs.captured snapshot (List.mem_of_getElem? found)
          exact ⟨chans, k, _, live, rfl, procs.node, procs.applyMu, ⟨free, own⟩, kept⟩
        · exact ⟨chans, k, _, live, rfl, procs.node, procs.applyMu, procs.persistMu, kept⟩
      · exact idle
  | persistSave =>
      simp only [Proc.step]
      split
      · rename_i snapshot held
        rw [held] at lock
        exact ⟨chans, k, _, live, rfl, procs.node, procs.applyMu, lock, procs.captured⟩
      · exact idle
  | persistEnd =>
      simp only [Proc.step]
      split
      · rename_i snapshot held
        rw [held] at lock
        obtain ⟨disk, ran⟩ : ∃ disk, (p.node.compact snapshot).exec store copy.disk [] =
            .done (p.node.compact snapshot).value disk := exec_value _ _
        have trims : k.node.Trims (p.node.compact snapshot).value := by
          rcases (Node.compact_ends snapshot).value with same | ⟨worth, same⟩
          · rw [same]
            exact procs.node
          · rw [same]
            exact procs.node.again lock.2 worth
        simp only [Host.run, ran]
        exact ⟨chans, k, _, live, rfl, trims, procs.applyMu, lock.1.symm, procs.captured⟩
      · exact idle
  | _ => exact compacts.elim

/-- Two copies of one machine. -/
structure Copies where
  first : Host
  second : Host

namespace Copies

/-- What may happen to the copies: both take the same step, or one of them compacts its log. -/
inductive Event where
  | both (action : Action)
  | first (action : Action)
  | second (action : Action)

def step (copies : Copies) (cfg : Config) (codec : SnapshotCodec) : Event → Copies
  | .both action =>
      { first := (copies.first.step cfg codec [] action).1,
        second := (copies.second.step cfg codec [] action).1 }
  | .first action => { copies with first := (copies.first.step cfg codec [] action).1 }
  | .second action => { copies with second := (copies.second.step cfg codec [] action).1 }

/-- Requests are handed to both copies when both can take them. -/
def Admits (copies : Copies) : Event → Prop
  | .both action =>
      (∀ p ∈ copies.first.proc, p.Takes action) ∧ ∀ p ∈ copies.second.proc, p.Takes action
  | .first action => action.Compacts
  | .second action => action.Compacts

def Event.Ordered : Event → Prop
  | .both action => action.Ordered
  | _ => True

inductive Step (cfg : Config) (codec : SnapshotCodec) (allowed : Copies → Event → Prop)
    (copies : Copies) :
    Copies → Prop
  | event (event : Event) (admitted : allowed copies event) :
      Step cfg codec allowed copies (copies.step cfg codec event)

abbrev Run (cfg : Config) (codec : SnapshotCodec) (allowed : Copies → Event → Prop) :
    Copies → Copies → Prop :=
  Relation.ReflTransGen (Step cfg codec allowed)

/-- The second machine runs the node of the first one, compacted by a snapshot of its own
history. -/
structure Start (n : Node) (snapshot : Snapshot) (copies : Copies) : Prop where
  chans : copies.second.chans = copies.first.chans
  procs : ∃ applyMu, copies.first.proc = some { node := n, applyMu := applyMu } ∧
    copies.second.proc = some { node := n.compacted snapshot, applyMu := applyMu }

/-- The copies agree on everything above the larger of their snapshots. -/
structure Same (p q : Proc) : Prop where
  commitIndex : q.node.commitIndex = p.node.commitIndex
  lastApplied : q.node.lastApplied = p.node.lastApplied
  sm : q.node.sm = p.node.sm
  applies : q.node.applies = p.node.applies
  delivered : q.node.delivered = p.node.delivered
  log : (q.node.log.filter fun entry =>
      max p.node.snapshot.lastIncludedIndex q.node.snapshot.lastIncludedIndex < entry.index) =
    p.node.log.filter fun entry =>
      max p.node.snapshot.lastIncludedIndex q.node.snapshot.lastIncludedIndex < entry.index

/-- Some machine that never compacts its log is mirrored by both copies. -/
def Mirrored (copies : Copies) : Prop :=
  ∃ original : Host, original.Mirrors copies.first ∧ original.Mirrors copies.second

variable {copies start final : Copies}

theorem Start.mirrored {n : Node} {snapshot : Snapshot} (begun : Start n snapshot copies)
    (wf : WellFormed n) (worth : n.worthPersisting snapshot = true)
    (boundary : n.termAtLocked snapshot.lastIncludedIndex = some snapshot.lastIncludedTerm) :
    copies.Mirrored := by
  obtain ⟨chans, applyMu, first, second⟩ := begun
  have own : n.Captured snapshot := by
    simp only [Node.worthPersisting, decide_eq_true_eq] at worth
    exact ⟨worth.2, fun _ => boundary⟩
  have whole := Node.Trims.refl wf
  refine ⟨copies.first, ⟨rfl, _, _, first, first, whole, rfl, rfl, by rintro _ ⟨⟩⟩,
    ⟨chans, _, _, first, second, whole.again own worth, rfl, rfl, by rintro _ ⟨⟩⟩⟩

theorem trims_above {k n : Node} (trims : k.Trims n) {index : Nat}
    (above : n.snapshot.lastIncludedIndex ≤ index) :
    (n.log.filter fun entry => index < entry.index) = k.log.filter fun entry =>
      index < entry.index := by
  rcases trims with ⟨-, s, -, rfl⟩
  have twice : (k.compacted s).compacted { lastIncludedIndex := index } =
    k.compacted { lastIncludedIndex := index } :=
    Node.compacted_compacted above
  exact congrArg Node.log twice

theorem Mirrored.same (mirrored : copies.Mirrored) : ∃ p q, copies.first.proc = some p ∧
    copies.second.proc = some q ∧ Same p q := by
  rcases mirrored with ⟨original, ⟨-, k, p, live, first, left⟩, -, k', q, live', second, right⟩
  obtain rfl : k' = k := Option.some.inj (live'.symm.trans live)
  refine ⟨p, q, first, second, ?_⟩
  have log := (trims_above right.node (le_max_right p.node.snapshot.lastIncludedIndex _)).trans
    (trims_above left.node (le_max_left _ q.node.snapshot.lastIncludedIndex)).symm
  rcases left.node with ⟨-, s, -, one⟩
  rcases right.node with ⟨-, t, -, two⟩
  constructor
  case log => exact log
  all_goals
    rw [one, two]
    rfl

/-- One step of both copies, seen from the original. -/
theorem Mirrored.both (mirrored : copies.Mirrored) {action : Action}
    (admitted : copies.Admits (.both action)) (ordered : action.Ordered) :
    (copies.step cfg codec (.both action)).Mirrored ∧ ∃ output : Output,
      output.Alike (copies.first.step cfg codec [] action).2 ∧
      output.Alike (copies.second.step cfg codec [] action).2 := by
  rcases mirrored with
    ⟨original, ⟨chans, k, p, live, first, left⟩, chans', k', q, live', second, right⟩
  obtain rfl : k' = k := Option.some.inj (live'.symm.trans live)
  have one : Agree (original.step cfg codec [] action) (copies.first.step cfg codec [] action) := by
    simp only [Host.step, live, first]
    exact left.step live first chans (admitted.1 p first) ordered
  have two : Agree (original.step cfg codec [] action)
      (copies.second.step cfg codec [] action) := by
    simp only [Host.step, live, second]
    exact right.step live second chans' (admitted.2 q second) ordered
  exact ⟨⟨_, one.1, two.1⟩, _, one.2, two.2⟩

theorem Mirrored.step (mirrored : copies.Mirrored) {event : Event} (admitted : copies.Admits event)
    (ordered : event.Ordered) : (copies.step cfg codec event).Mirrored := by
  cases event with
  | both action => exact (mirrored.both admitted ordered).1
  | first action =>
      rcases mirrored with ⟨original, left, right⟩
      exact ⟨original, left.compacting admitted, right⟩
  | second action =>
      rcases mirrored with ⟨original, left, right⟩
      exact ⟨original, left, right.compacting admitted⟩

theorem mirrored_of_run (mirrored : start.Mirrored)
    (run : Run cfg codec (fun copies event => copies.Admits event ∧ event.Ordered) start final) :
    final.Mirrored := by
  induction run with
  | refl => exact mirrored
  | tail before last ih =>
      cases last with
      | event event admitted => exact ih.step admitted.1 admitted.2

/-- Whatever the two copies are fed, as long as the entries of every AppendEntries request follow
one another, they agree on everything above the larger snapshot and answer the next request
alike. -/
theorem compaction_transparent {n : Node} {snapshot : Snapshot} (wf : WellFormed n)
    (worth : n.worthPersisting snapshot = true)
    (boundary : n.termAtLocked snapshot.lastIncludedIndex = some snapshot.lastIncludedTerm)
    (begun : Start n snapshot start)
    (run : Run cfg codec (fun copies event => copies.Admits event ∧ event.Ordered) start final) :
    (∃ p q, final.first.proc = some p ∧ final.second.proc = some q ∧ Same p q) ∧
      ∀ action, final.Admits (.both action) → action.Ordered →
        Output.Alike (final.first.step cfg codec [] action).2
          (final.second.step cfg codec [] action).2 := by
  have mirrored := mirrored_of_run (begun.mirrored wf worth boundary) run
  refine ⟨mirrored.same, fun action admitted ordered => ?_⟩
  rcases (mirrored.both admitted ordered).2 with ⟨output, left, right⟩
  exact left.join right

open Host (entryAt)

def follower : Node where
  currentTerm := 1
  log := [entryAt 1 1, entryAt 2 1, entryAt 3 1, entryAt 4 1, entryAt 5 1]
  commitIndex := 3
  lastApplied := 3

def cut : Snapshot where
  lastIncludedIndex := 3
  lastIncludedTerm := 1
  data := some ∅

def followers : Copies where
  first := { proc := some { node := follower } }
  second := { proc := some { node := follower.compacted cut } }

theorem followers_start : Start follower cut followers := ⟨rfl, .free, rfl, rfl⟩

theorem follower_wellFormed : WellFormed follower where
  contiguous := by simp [follower, entryAt]
  compacted := by decide
  applied := by decide
  committed := by decide

def extend (entries : List LogEntry) : AppendEntriesRequest where
  term := 1
  leaderID := "b"
  prevLogIndex := 5
  prevLogTerm := 1
  entries := entries
  leaderCommit := 6

theorem followers_alike (entries : List LogEntry) :
    followers.Admits (.both (.appendEntries (extend entries))) := by
  constructor
  · intro p live
    cases live
    exact Nat.zero_le _
  · intro p live
    cases live
    have later : 3 ≤ 5 := by decide
    exact later

theorem compaction_transparent_extend : ∃ p q,
    ((followers.step (trio "a") SnapshotJson.codec
      (.both (.appendEntries (extend [entryAt 6 1, entryAt 7 1])))).first.proc = some p ∧
    (followers.step (trio "a") SnapshotJson.codec
      (.both (.appendEntries (extend [entryAt 6 1, entryAt 7 1])))).second.proc = some q) ∧
    p.node.commitIndex = 6 ∧ q.node.log = [entryAt 4 1, entryAt 5 1, entryAt 6 1, entryAt 7 1] ∧
      Same p q := by
  have ordered : Contiguous 5 [entryAt 6 1, entryAt 7 1] := by simp [entryAt]
  have run : Run (trio "a") SnapshotJson.codec (fun copies event => copies.Admits event ∧
      event.Ordered) followers (followers.step (trio "a") SnapshotJson.codec
        (.both (.appendEntries (extend [entryAt 6 1, entryAt 7 1])))) :=
    .single (.event _ ⟨followers_alike _, ordered⟩)
  obtain ⟨p, q, first, second, same⟩ :=
    (compaction_transparent follower_wellFormed rfl rfl followers_start run).1
  refine ⟨p, q, ⟨first, second⟩, ?_, ?_, same⟩
  · cases first
    decide +kernel
  · cases second
    decide +kernel

/-- Fed indexes 6, 2 and 7, the copy with the older snapshot answers false, the other one true. -/
theorem compaction_seen_by_append : ∃ n snapshot start final action first second,
    WellFormed n ∧ n.worthPersisting snapshot = true ∧
    n.termAtLocked snapshot.lastIncludedIndex = some snapshot.lastIncludedTerm ∧
      Start n snapshot start ∧
    Run (trio "a") SnapshotJson.codec Admits start final ∧ final.Admits (.both action) ∧
    (final.first.step (trio "a") SnapshotJson.codec [] action).2 = .append first ∧
    (final.second.step (trio "a") SnapshotJson.codec [] action).2 = .append second ∧
    first.success = false ∧ second.success = true := by
  refine ⟨follower, cut, followers, followers,
    .appendEntries (extend [entryAt 6 1, entryAt 2 1, entryAt 7 1]), _, _, follower_wellFormed,
    rfl, rfl, followers_start, .refl, followers_alike _, rfl, rfl, ?_, ?_⟩
  · decide +kernel
  · decide +kernel

end Copies

end GoRaftKV.Raft
