import GoRaftKV.Raft.HostRuns

namespace GoRaftKV.Raft

open Storage Library

/-- The errors that are not the state machine's, nor one about a result that is unknown. -/
def NodeError.Refusal : NodeError → Prop
  | .nodeStopped | .storage | .notLeader _ _ => True
  | _ => False

namespace Node

def channels (n : Node) : List ChanId := n.waiters.map Prod.snd ++ n.delivered.map Prod.fst

/-- Every waiter waits for the entry its `Propose` call has made, no channel is sent to twice, and a
result that has been sent is the one the state machine returned for that entry. -/
structure Waits (chans : Nat) (n : Node) : Prop where
  made : ∀ waiter ∈ n.waiters, ∃ entry, (waiter.2, entry) ∈ n.proposed ∧ entry.index = waiter.1 ∧
    (n.lastApplied < waiter.1 → n.entryAtLocked waiter.1 = some entry)
  distinct : n.channels.Nodup
  numbered : ∀ chan ∈ n.channels, chan < chans
  proposed : ∀ made ∈ n.proposed, made.1 < chans
  genuine : ∀ sent ∈ n.delivered, (∃ err, sent.2.err = some err ∧ err.Refusal) ∨
    (sent.2.err = none ∧ ∃ entry, (sent.1, entry) ∈ n.proposed ∧ (entry, sent.2.result) ∈ n.applies)
  applies : ∀ done ∈ n.applies, ∃ data, done.2 = (KVStateMachine.apply data done.1.command).2

/-- A node that does not lead keeps waiters for committed entries only. -/
def Purged (n : Node) : Prop := n.role ≠ .leader → ∀ waiter ∈ n.waiters, waiter.1 ≤ n.commitIndex

variable {cfg : Config} {chans more : Nat} {n m : Node}

theorem Waits.mono (waits : n.Waits chans) (grows : chans ≤ more) : n.Waits more :=
  ⟨waits.made, waits.distinct, fun chan member => (waits.numbered chan member).trans_le grows,
    fun made member => (waits.proposed made member).trans_le grows, waits.genuine, waits.applies⟩

theorem Waits.keep (waits : n.Waits chans) (waiters : m.waiters = n.waiters)
    (delivered : m.delivered = n.delivered) (proposed : m.proposed = n.proposed)
    (applies : m.applies = n.applies) (later : n.lastApplied ≤ m.lastApplied)
    (kept : ∀ waiter ∈ n.waiters, ∀ entry, m.lastApplied < waiter.1 →
      n.entryAtLocked waiter.1 = some entry → m.entryAtLocked waiter.1 = some entry) :
    m.Waits chans where
  made := by
    rw [waiters, proposed]
    intro waiter member
    rcases waits.made waiter member with ⟨entry, made, index, present⟩
    refine ⟨entry, made, index, fun unapplied => ?_⟩
    exact kept waiter member entry unapplied (present (later.trans_lt unapplied))
  distinct := by
    rw [channels, waiters, delivered]
    exact waits.distinct
  numbered := by
    rw [channels, waiters, delivered]
    exact waits.numbered
  proposed := by
    rw [proposed]
    exact waits.proposed
  genuine := by
    rw [delivered, proposed, applies]
    exact waits.genuine
  applies := by
    rw [applies]
    exact waits.applies

theorem Waits.fewer (waits : n.Waits chans) {waiters : List (Nat × ChanId)}
    (fewer : waiters.Sublist n.waiters) : Waits chans { n with waiters := waiters } where
  made := fun waiter member => waits.made waiter (fewer.subset member)
  distinct := waits.distinct.sublist ((fewer.map Prod.snd).append_right _)
  numbered := by
    intro chan member
    exact waits.numbered chan (((fewer.map Prod.snd).append_right _).subset member)
  proposed := waits.proposed
  genuine := waits.genuine
  applies := waits.applies

theorem resolveWaiters_channels (choose : Nat → Bool) (outcome : ApplyOutcome) :
    (n.resolveWaiters choose outcome).channels.Perm n.channels := by
  have split := (List.filter_append_perm (fun waiter => choose waiter.1) n.waiters).map Prod.snd
  rw [List.map_append] at split
  simp only [channels, resolveWaiters, List.map_append, List.map_map]
  have turned := (split.append_left (n.delivered.map Prod.fst)).trans List.perm_append_comm
  rw [← List.append_assoc] at turned
  exact List.perm_append_comm.trans turned

theorem Waits.resolved (waits : n.Waits chans) (choose : Nat → Bool) (outcome : ApplyOutcome)
    (genuine : ∀ waiter ∈ n.waiters, choose waiter.1 = true →
      (∃ err, outcome.err = some err ∧ err.Refusal) ∨ (outcome.err = none ∧
        ∃ entry, (waiter.2, entry) ∈ n.proposed ∧ (entry, outcome.result) ∈ n.applies)) :
    (n.resolveWaiters choose outcome).Waits chans where
  made := fun waiter member => waits.made waiter (List.mem_of_mem_filter member)
  distinct := (resolveWaiters_channels choose outcome).nodup_iff.mpr waits.distinct
  numbered := by
    intro chan member
    exact waits.numbered chan ((resolveWaiters_channels choose outcome).mem_iff.mp member)
  proposed := waits.proposed
  genuine := by
    intro sent member
    rcases List.mem_append.mp member with old | new
    · exact waits.genuine sent old
    · rcases List.mem_map.mp new with ⟨waiter, chosen, rfl⟩
      rcases List.mem_filter.mp chosen with ⟨registered, selected⟩
      exact genuine waiter registered selected
  applies := waits.applies

theorem Waits.failed (waits : n.Waits chans) (choose : Nat → Bool) {outcome : ApplyOutcome}
    (err : NodeError) (fails : outcome.err = some err) (refusal : err.Refusal) :
    (n.resolveWaiters choose outcome).Waits chans :=
  waits.resolved choose outcome fun _ _ _ => Or.inl ⟨err, fails, refusal⟩

theorem entryAtLocked_append {index : Nat} {entry : LogEntry} (rest : List LogEntry)
    (log : m.log = n.log ++ rest) (snapshot : m.snapshot = n.snapshot)
    (present : n.entryAtLocked index = some entry) : m.entryAtLocked index = some entry := by
  rcases entryAtLocked_index present with ⟨same, after, found⟩
  have bound := (List.getElem?_eq_some_iff.mp found).1
  have longer : m.log[index - m.snapshot.lastIncludedIndex - 1]? = some entry := by
    rw [log, snapshot, List.getElem?_append_left bound]
    exact found
  unfold entryAtLocked
  rw [if_neg (by rw [snapshot]; omega), longer]
  exact if_pos same

theorem steppedDown_purged (term : Nat) (leaderID : NodeId) (purged : n.Purged) :
    (n.steppedDown cfg term leaderID).Purged := by
  intro _ waiter member
  unfold steppedDown at member ⊢
  split at member
  · rename_i leads
    rw [if_pos leads]
    have kept := (List.mem_filter.mp member).2
    simp only [Bool.not_eq_true', decide_eq_false_iff_not, not_lt] at kept
    exact kept
  · rename_i idle
    rw [if_neg idle]
    rw [followerAt_eq] at member ⊢
    exact purged idle waiter member

theorem failStorageLocked_purged : (n.failStorageLocked cfg).Purged := by
  intro _ waiter member
  have kept := (List.mem_filter.mp member).2
  simp only [Bool.not_eq_true', decide_eq_false_iff_not, not_lt] at kept
  exact kept

theorem Move.purged (move : Move cfg n m) (purged : n.Purged) : m.Purged := by
  cases move with
  | progress | vote | noop | merge => exact purged
  | follow term leaderID => exact steppedDown_purged term leaderID purged
  | fail term leaderID => exact failStorageLocked_purged
  | stand idle => exact fun _ => purged idle
  | lead standing => exact fun idle => absurd rfl idle
  | commit index later bound =>
      exact fun idle waiter member => (purged idle waiter member).trans later
  | cancel index chan =>
      exact fun idle waiter member => purged idle waiter (List.mem_of_mem_erase member)
  | stop =>
      unfold Node.stop
      split
      · exact purged
      · exact fun idle waiter member => purged idle waiter (List.mem_of_mem_filter member)

theorem Move.waits (move : Move cfg n m) (wf : WellFormed n) (purged : n.Purged)
    (waits : n.Waits chans) : m.Waits chans := by
  cases move with
  | progress | vote | stand | lead | commit =>
      exact waits.keep rfl rfl rfl rfl le_rfl fun _ _ _ _ present => present
  | follow term leaderID =>
      have after : (n.followerAt term leaderID).Waits chans := by
        rw [followerAt_eq]
        exact waits.keep rfl rfl rfl rfl le_rfl fun _ _ _ _ present => present
      unfold steppedDown
      split
      · exact after.failed _ _ rfl trivial
      · exact after
  | fail term leaderID =>
      have after : ({ n.followerAt term leaderID with
          storageFatal := true, role := .follower, leaderID := "", leaderNoopIndex := 0 }).Waits
            chans := by
        rw [followerAt_eq]
        exact waits.keep rfl rfl rfl rfl le_rfl fun _ _ _ _ present => present
      unfold failStorageLocked failUncommittedWaitersLocked
      exact after.failed _ _ rfl trivial
  | noop entry leads next =>
      exact waits.keep rfl rfl rfl rfl le_rfl
        fun _ _ _ _ present => entryAtLocked_append [entry] rfl rfl present
  | merge keep rest follows bound safe next =>
      -- a follower awaits committed entries only, and a merge leaves those alone
      refine waits.keep (m := { n with log := n.log.take keep ++ rest }) rfl rfl rfl rfl le_rfl ?_
      intro waiter member entry unapplied present
      have committed := purged (by rw [follows]; decide) waiter member
      rw [(upholds_merge wf bound safe next).kept waiter.1 (wf.compacted.trans_lt unapplied)
        committed]
      exact present
  | cancel index chan => exact waits.fewer List.erase_sublist
  | stop =>
      unfold Node.stop
      split
      · exact waits
      · have after : ({ n with stopped := true }).Waits chans :=
          waits.keep rfl rfl rfl rfl le_rfl fun _ _ _ _ present => present
        exact after.failed _ _ rfl trivial

theorem Moves.purged (moves : Moves cfg n m) (purged : n.Purged) : m.Purged := by
  induction moves with
  | refl => exact purged
  | tail _ move ih => exact move.purged ih

theorem Moves.waits (moves : Moves cfg n m) (wf : WellFormed n) (purged : n.Purged)
    (waits : n.Waits chans) : m.Waits chans := by
  induction moves with
  | refl => exact waits
  | tail moves move ih =>
      exact move.waits (Moves.upholds moves wf).wellFormed (Moves.purged moves purged) ih

/-- Nothing has been proposed or applied. -/
structure Rests (n m : Node) : Prop where
  waiters : m.waiters ⊆ n.waiters
  lastApplied : m.lastApplied = n.lastApplied
  proposed : m.proposed = n.proposed
  applies : m.applies = n.applies

theorem Rests.refl (n : Node) : Rests n n := ⟨fun _ member => member, rfl, rfl, rfl⟩

theorem Rests.trans {k : Node} (first : Rests n m) (second : Rests m k) : Rests n k where
  waiters := fun _ member => first.waiters (second.waiters member)
  lastApplied := second.lastApplied.trans first.lastApplied
  proposed := second.proposed.trans first.proposed
  applies := second.applies.trans first.applies

theorem Move.rests (move : Move cfg n m) : Rests n m := by
  cases move with
  | follow term leaderID =>
      rw [steppedDown, followerAt_eq]
      split
      · exact ⟨fun _ member => List.mem_of_mem_filter member, rfl, rfl, rfl⟩
      · exact ⟨fun _ member => member, rfl, rfl, rfl⟩
  | fail term leaderID =>
      rw [followerAt_eq]
      exact ⟨fun _ member => List.mem_of_mem_filter member, rfl, rfl, rfl⟩
  | cancel => exact ⟨fun _ member => List.mem_of_mem_erase member, rfl, rfl, rfl⟩
  | stop =>
      unfold Node.stop
      split
      · exact .refl n
      · exact ⟨fun _ member => List.mem_of_mem_filter member, rfl, rfl, rfl⟩
  | _ => exact ⟨fun _ member => member, rfl, rfl, rfl⟩

theorem Moves.rests (moves : Moves cfg n m) : Rests n m := by
  induction moves with
  | refl => exact .refl n
  | tail _ move ih => exact ih.trans move.rests

theorem Waits.accepted (waits : n.Waits chans) {entry : LogEntry} (wf : WellFormed n)
    (next : entry.index = n.lastIndexLocked + 1) :
    (n.accepted cfg entry chans).Waits (chans + 1) where
  made := by
    intro waiter member
    rcases List.mem_append.mp member with old | new
    · rcases waits.made waiter old with ⟨other, made, index, present⟩
      refine ⟨other, List.mem_append_left _ made, index, fun unapplied => ?_⟩
      exact entryAtLocked_append [entry] rfl rfl (present unapplied)
    · rw [List.mem_singleton.mp new]
      refine ⟨entry, List.mem_append_right _ (List.mem_singleton_self _), rfl, fun _ => ?_⟩
      have longer :=
        (Upholds.snoc (m := n.accepted cfg entry chans) wf next rfl rfl rfl rfl).wellFormed
      have last := lastIndexLocked_eq wf.contiguous
      have after : n.snapshot.lastIncludedIndex < entry.index := by omega
      have position : entry.index - n.snapshot.lastIncludedIndex - 1 = n.log.length := by omega
      rw [entryAtLocked_of_gt longer.contiguous after]
      change (n.log ++ [entry])[entry.index - n.snapshot.lastIncludedIndex - 1]? = some entry
      rw [position, List.getElem?_concat_length]
  distinct := by
    have fresh : chans ∉ n.channels := fun member => (waits.numbered chans member).false
    have turned : (n.accepted cfg entry chans).channels.Perm (chans :: n.channels) := by
      simp only [channels, Node.accepted, List.map_append, List.map_cons, List.map_nil,
        List.append_assoc, List.singleton_append]
      exact List.perm_middle
    exact turned.nodup_iff.mpr (List.nodup_cons.mpr ⟨fresh, waits.distinct⟩)
  numbered := by
    intro chan member
    simp only [channels, Node.accepted, List.map_append, List.map_cons, List.map_nil,
      List.mem_append, List.mem_singleton] at member
    rcases member with (old | rfl) | old
    · exact Nat.lt_succ_of_lt (waits.numbered chan (List.mem_append_left _ old))
    · exact Nat.lt_succ_self _
    · exact Nat.lt_succ_of_lt (waits.numbered chan (List.mem_append_right _ old))
  proposed := by
    intro made member
    rcases List.mem_append.mp member with old | new
    · exact Nat.lt_succ_of_lt (waits.proposed made old)
    · rw [List.mem_singleton.mp new]
      exact Nat.lt_succ_self _
  genuine := by
    intro sent member
    rcases waits.genuine sent member with failed | ⟨success, other, made, result⟩
    · exact Or.inl failed
    · exact Or.inr ⟨success, other, List.mem_append_left _ made, result⟩
  applies := waits.applies

end Node

def ApplyLock.entry : ApplyLock → Option LogEntry
  | .free => none
  | .applying entry => some entry
  | .applied entry _ => some entry

/-- The entry an `applyReady` iteration works on is committed, and nothing else takes its place. -/
def Proc.Holds (n : Node) (lock : ApplyLock) : Prop :=
  ∀ entry, lock.entry = some entry → entry.index ≤ n.commitIndex ∧
    (n.snapshot.lastIncludedIndex < entry.index → n.entryAtLocked entry.index = some entry)

namespace Proc

structure Waits (chans : Nat) (p : Proc) : Prop where
  node : p.node.Waits chans
  purged : p.node.Purged
  held : Holds p.node p.applyMu
  applied : ∀ entry result, p.applyMu = .applied entry result → (entry, result) ∈ p.node.applies

variable {cfg : Config} {chans more : Nat} {p q : Proc} {output : Output}

theorem Holds.upheld {n m : Node} {lock : ApplyLock} (held : Holds n lock) (upholds : n.Upholds m) :
    Holds m lock := by
  intro entry working
  rcases held entry working with ⟨committed, present⟩
  refine ⟨committed.trans upholds.commit, fun after => ?_⟩
  rw [upholds.kept entry.index after committed]
  exact present (upholds.compacted.trans_lt after)

theorem Holds.free (n : Node) : Holds n .free := by
  intro entry working
  cases working

theorem Waits.moved {m : Node} {persistMu : PersistLock} {captured : List Snapshot}
    (waits : p.Waits chans) (wf : WellFormed p.node) (moves : Node.Moves cfg p.node m) :
    Waits chans { p with node := m, persistMu := persistMu, captured := captured } where
  node := moves.waits wf waits.purged waits.node
  purged := moves.purged waits.purged
  held := waits.held.upheld (moves.upholds wf)
  applied := by
    rw [moves.rests.applies]
    exact waits.applied

theorem Waits.installed {m : Node} {snapshot : Snapshot} (node : m.Waits chans) (purged : m.Purged)
    (follows : m.role = .follower) (newer : m.commitIndex < snapshot.lastIncludedIndex) :
    (m.installed snapshot (m.logAfterSnapshotLocked snapshot) snapshot.lastIncludedIndex).Waits
      chans ∧ (m.installed snapshot (m.logAfterSnapshotLocked snapshot)
        snapshot.lastIncludedIndex).Purged := by
  have committed := purged (by rw [follows]; decide)
  constructor
  · refine node.keep (m := m.installed snapshot _ _) rfl rfl rfl rfl (le_max_left _ _) ?_
    intro waiter member entry unapplied
    -- every waiter is at or below the index the installation jumps to
    have jumped : snapshot.lastIncludedIndex < waiter.1 := (le_max_right _ _).trans_lt unapplied
    have bound := committed waiter member
    omega
  · intro _ waiter member
    exact (committed waiter member).trans newer.le

theorem Waits.done (waits : p.Waits chans) (wf : WellFormed p.node) {entry : LogEntry}
    {result : ApplyResult} (applied : p.applyMu = .applied entry result)
    (still : p.node.stillApplies entry = true) :
    (Node.finishWaitersLocked { p.node with lastApplied := entry.index } entry.index result).Waits
      chans := by
  simp only [Node.stillApplies, decide_eq_true_eq] at still
  have compacted := wf.compacted
  have after : p.node.snapshot.lastIncludedIndex < entry.index := by omega
  have present := (waits.held entry (by rw [applied]; rfl)).2 after
  have moved : ({ p.node with lastApplied := entry.index }).Waits chans := by
    refine waits.node.keep rfl rfl rfl rfl ?_ fun _ _ _ _ present => present
    change p.node.lastApplied ≤ entry.index
    omega
  apply moved.resolved
  intro waiter member chosen
  have index : waiter.1 = entry.index := of_decide_eq_true chosen
  rcases waits.node.made waiter member with ⟨other, made, -, awaited⟩
  rw [index, present] at awaited
  have same : entry = other := Option.some.inj (awaited (by omega))
  exact Or.inr ⟨rfl, entry, same ▸ made, waits.applied entry result applied⟩

theorem Move.waits (move : p.Move cfg chans output more q) (wf : WellFormed p.node)
    (waits : p.Waits chans) : q.Waits more := by
  have upholds := move.upholds wf
  cases move with
  | quiet more m persistMu captured refused moves =>
      have moved : Waits chans { p with node := m, persistMu := persistMu, captured := captured } :=
        waits.moved wf moves
      have grows : chans ≤ more := by
        rcases refused with same | ⟨next, -⟩ <;> omega
      exact ⟨moved.node.mono grows, moved.purged, moved.held, moved.applied⟩
  | propose entry m leads next moves made =>
      have snoc := Node.Upholds.snoc (m := p.node.accepted cfg entry chans) wf next rfl rfl rfl rfl
      have accepted : (p.node.accepted cfg entry chans).Waits (chans + 1) :=
        waits.node.accepted wf next
      have purged : (p.node.accepted cfg entry chans).Purged := fun idle => absurd leads idle
      refine ⟨moves.waits snoc.wellFormed purged accepted, moves.purged purged,
        waits.held.upheld upholds, ?_⟩
      change ∀ entry result, p.applyMu = .applied entry result → (entry, result) ∈ m.applies
      rw [moves.rests.applies]
      exact waits.applied
  | install m snapshot call req body held free moves follows commit newer index =>
      have ended := Waits.installed (moves.waits wf waits.purged waits.node)
        (moves.purged waits.purged) follows newer
      refine ⟨ended.1, ended.2, ?_, ?_⟩
      · rw [free]
        exact .free _
      · intro entry result applied
        cases free.symm.trans applied
  | compact snapshot held worth =>
      simp only [Node.worthPersisting, decide_eq_true_eq] at worth
      refine ⟨?_, waits.purged, waits.held.upheld upholds, waits.applied⟩
      refine waits.node.keep (m := p.node.compacted snapshot) rfl rfl rfl rfl le_rfl ?_
      intro waiter _ entry unapplied present
      rw [Node.entryAtLocked_compacted wf worth.1 (worth.2.trans_lt unapplied)]
      exact present
  | applyNext entry free behind found =>
      refine ⟨waits.node, waits.purged, ?_, fun _ _ applied => by cases applied⟩
      intro other working
      cases working
      have index := (Node.entryAtLocked_index found).1
      rw [index]
      exact ⟨behind, fun _ => found⟩
  | applyEntry entry applying =>
      refine ⟨?_, waits.purged, ?_, ?_⟩
      · refine ⟨waits.node.made, waits.node.distinct, waits.node.numbered, waits.node.proposed,
          ?_, ?_⟩
        · intro sent member
          rcases waits.node.genuine sent member with failed | ⟨success, other, made, result⟩
          · exact Or.inl failed
          · exact Or.inr ⟨success, other, made, List.mem_append_left _ result⟩
        · intro made member
          rcases List.mem_append.mp member with old | new
          · exact waits.node.applies made old
          · rw [List.mem_singleton.mp new]
            exact ⟨p.node.sm, rfl⟩
      · intro other working
        cases working
        exact waits.held entry (by rw [applying]; rfl)
      · intro other result applied
        cases applied
        exact List.mem_append_right _ (List.mem_singleton_self _)
  | applyDone entry result captured applied still =>
      refine ⟨waits.done wf applied still, ?_, .free _, fun _ _ applied => by cases applied⟩
      intro idle waiter member
      exact waits.purged idle waiter (List.mem_of_mem_filter member)
  | applyStale entry result captured applied stale =>
      exact ⟨waits.node, waits.purged, .free _, fun _ _ applied => by cases applied⟩

theorem Move.applies (move : p.Move cfg chans output more q) :
    q.node.applies = p.node.applies ∨
      ∃ entry result, p.applyMu = .applying entry ∧
        q.node.applies = p.node.applies ++ [(entry, result)] := by
  cases move with
  | quiet more m persistMu captured refused moves => exact Or.inl moves.rests.applies
  | propose entry m leads next moves made => exact Or.inl moves.rests.applies
  | install m snapshot call req body held free moves follows commit newer index =>
      exact Or.inl moves.rests.applies
  | applyEntry entry applying => exact Or.inr ⟨entry, _, applying, rfl⟩
  | _ => exact Or.inl rfl

theorem Move.proposed (move : p.Move cfg chans output more q) :
    q.node.proposed = p.node.proposed ∨
      ∃ entry, output = .proposed chans (.ok entry) ∧
        q.node.proposed = p.node.proposed ++ [(chans, entry)] := by
  cases move with
  | quiet more m persistMu captured refused moves => exact Or.inl moves.rests.proposed
  | propose entry m leads next moves made => exact Or.inr ⟨entry, made, moves.rests.proposed⟩
  | install m snapshot call req body held free moves follows commit newer index =>
      exact Or.inl moves.rests.proposed
  | _ => exact Or.inl rfl

/-- The index of the snapshot with whose collected body `HandleInstallSnapshot` goes on. -/
def installs (p : Proc) (action : Action) : Option Nat :=
  match action, p.persistMu with
  | .installDecoded, .decoding _ req _ =>
      if p.applyMu = .free then some req.lastIncludedIndex else none
  | _, _ => none

/-- Every waiter still waits for its entry to be applied, as long as an installation finds none for
an entry that is already committed. -/
theorem Move.unapplied (move : p.Move cfg chans output more q) (wf : WellFormed p.node)
    (purged : p.node.Purged)
    (settled : ∀ call req body, p.persistMu = .decoding call req body → q.persistMu = .free →
      p.applyMu = .free → p.node.commitIndex < req.lastIncludedIndex →
      ∀ waiter ∈ p.node.waiters, p.node.commitIndex < waiter.1)
    (unapplied : ∀ waiter ∈ p.node.waiters, p.node.lastApplied < waiter.1) :
    ∀ waiter ∈ q.node.waiters, q.node.lastApplied < waiter.1 := by
  cases move with
  | quiet more m persistMu captured refused moves =>
      intro waiter member
      rw [moves.rests.lastApplied]
      exact unapplied waiter (moves.rests.waiters member)
  | propose entry m leads next moves made =>
      intro waiter member
      rw [moves.rests.lastApplied]
      rcases List.mem_append.mp (moves.rests.waiters member) with old | new
      · exact unapplied waiter old
      · rw [List.mem_singleton.mp new]
        have last := wf.applied.trans wf.committed
        change p.node.lastApplied < entry.index
        omega
  | install m snapshot call req body held free moves follows commit newer index =>
      intro waiter member
      -- a waiter that survives the step-down is for a committed entry
      have committed := moves.purged purged (by rw [follows]; decide) waiter member
      have after : p.node.commitIndex < req.lastIncludedIndex := by omega
      have above := settled call req body held rfl free after waiter (moves.rests.waiters member)
      omega
  | applyDone entry result captured applied still =>
      intro waiter member
      simp only [Node.stillApplies, decide_eq_true_eq] at still
      rcases List.mem_filter.mp member with ⟨registered, other⟩
      simp only [Bool.not_eq_true', decide_eq_false_iff_not] at other
      have before := unapplied waiter registered
      change entry.index < waiter.1
      omega
  | _ => exact unapplied

end Proc

theorem restored_waits (loaded : Loaded) (chans : Nat) :
    Proc.Waits chans { node := Node.restored loaded } := by
  -- A process that `NewNode` has just built has no waiters.
  constructor
  · constructor <;> simp [Node.restored, Node.channels]
  · intro _ waiter member
    cases member
  · exact .free _
  · intro entry result applied
    cases applied

end GoRaftKV.Raft
