import GoRaftKV.Raft.Frames
import GoRaftKV.Raft.HostRuns

namespace GoRaftKV.Raft

open Storage Library Program

namespace Node

/-- The locked section of `replicateAllOnce`: the peers whose slots it has taken. -/
def replicateAllOnce (n : Node) (cfg : Config) : Node × Except NodeError (Finset NodeId) :=
  if n.stopped = true then (n, .error .nodeStopped)
  else if n.role ≠ .leader then (n, .error (n.notLeaderLocked cfg))
  else
    ({ n with
       replicating := fun peer => if peer ∈ cfg.peerAddrs then true else n.replicating peer },
      .ok (cfg.peerAddrs.filter fun peer => n.replicating peer = false))

/-- One turn of the loop of `acquirePeerReplication`; `none` when it waits and polls again. -/
def acquirePeerReplication (n : Node) (peer : NodeId) : Node × Option Bool :=
  if n.stopped = true ∨ n.storageFatal = true ∨ n.role ≠ .leader then (n, some false)
  else if n.replicating peer = false then
    ({ n with replicating := Function.update n.replicating peer true }, some true)
  else (n, none)

def finishPeerReplication (n : Node) (peer : NodeId) : Node :=
  { n with replicating := Function.update n.replicating peer false }

def Dispatch.quits : Dispatch → Bool
  | .quit => true
  | _ => false

theorem leader_of_dispatch {n : Node} {cfg : Config} {peer : NodeId}
    (goes : ¬ (n.replicateToPeer cfg peer).2.quits = true) : n.role = .leader := by
  by_contra follows
  apply goes
  rw [replicateToPeer, if_pos (Or.inr follows)]
  rfl

end Node

namespace Host

def leads (host : Host) : Bool := host.proc.any fun p => p.node.role = .leader

variable {cfg : Config} {codec : SnapshotCodec} {host : Host} {p q : Proc} {fates : List Fate}
  {action : Action}

theorem leads_live (live : host.proc = some p) : host.leads = true ↔ p.node.role = .leader := by
  simp [leads, live]

theorem restart_follows (down : host.proc = none)
    (alive : (host.step cfg codec fates action).1.proc = some q) : q.node.role = .follower := by
  simp only [Host.step, down] at alive
  split at alive
  · rename_i loaded _
    rcases run_alive (Node.newNode_does loaded).all alive with ⟨result, restored, same, -, -⟩
    rcases Option.map_eq_some_iff.mp same with ⟨n, present, made⟩
    rw [← made, restored n present]
    rfl
  · rw [down] at alive
    cases alive

/-- A leadership keeps its slots, whatever the other sections do. -/
theorem step_slots (live : host.proc = some p)
    (alive : (host.step cfg codec fates action).1.proc = some q) (led : p.node.role = .leader)
    (leads : q.node.role = .leader) : q.node.replicating = p.node.replicating := by
  have frame := step_frame live alive
  cases crowns : action.crowns with
  | false => exact (frame.leads crowns leads).2.2
  | true =>
      cases action with
      | becomeLeader term =>
          simp only [Host.step, live, Proc.step] at alive
          rcases run_alive (Node.becomeLeader_slots term) alive with ⟨m, slots, same, -⟩
          cases same
          rcases slots with unchanged | ⟨stood, -⟩
          · rw [unchanged]
          · exact absurd led stood
      | _ => cases crowns

end Host

/-- Where a goroutine stands that has taken the slot of a peer: before its `replicateToPeer` call,
in the call it has started in some leadership, or on its way to the deferred
`finishPeerReplication`. -/
inductive Phase where
  | waiting
  | calling (leadership : Nat)
  | returned
  deriving DecidableEq

structure Worker where
  slot : Nat
  phase : Phase := .waiting
  deriving DecidableEq

/-- A node together with its goroutines of `replicateAllOnce` and `replicateToPeerForRead`.
`leadership` counts how often the node has become leader, and the `slot` of a goroutine is the
leadership in which it has taken the slot of its peer. -/
structure Replicator where
  host : Host
  leadership : Nat := 0
  workers : NodeId → List Worker := fun _ => []

namespace Replicator

/-- The sections that take slots, the first locked section of `replicateToPeer`, its return, the
release of the slot, and any other locked section of the node. -/
inductive Event where
  | locked (fates : List Fate) (action : Action)
  | replicateAllOnce
  | acquirePeerReplication (peer : NodeId)
  | replicateToPeer (peer : NodeId) (worker : Worker)
  | returned (peer : NodeId) (worker : Worker)
  | finishPeerReplication (peer : NodeId) (worker : Worker)

def take (r : Replicator) (peers : Finset NodeId) : Replicator :=
  { r with workers := fun peer =>
      if peer ∈ peers then { slot := r.leadership } :: r.workers peer else r.workers peer }

def move (r : Replicator) (peer : NodeId) (worker : Worker) (phase : Phase) : Replicator :=
  let moved := { worker with phase := phase } :: (r.workers peer).erase worker
  { r with workers := Function.update r.workers peer moved }

def drop (r : Replicator) (peer : NodeId) (worker : Worker) : Replicator :=
  { r with workers := Function.update r.workers peer ((r.workers peer).erase worker) }

/-- The goroutines die with their process. -/
def locked (r : Replicator) (next : Host) : Replicator where
  host := next
  leadership := if r.host.leads = false ∧ next.leads = true then r.leadership + 1 else r.leadership
  workers := fun peer => if next.proc.isSome then r.workers peer else []

def step (r : Replicator) (cfg : Config) (codec : SnapshotCodec) (event : Event) : Replicator :=
  match event, r.host.proc with
  | .locked fates action, _ => r.locked (r.host.step cfg codec fates action).1
  | .replicateAllOnce, some p =>
      match p.node.replicateAllOnce cfg with
      | (node, .ok peers) => { r with host := r.host.withNode p node }.take peers
      | (_, .error _) => r
  | .acquirePeerReplication peer, some p =>
      match p.node.acquirePeerReplication peer with
      | (node, some true) => { r with host := r.host.withNode p node }.take {peer}
      | _ => r
  | .replicateToPeer peer worker, some p =>
      if worker ∈ r.workers peer ∧ worker.phase = .waiting then
        let (node, dispatch) := p.node.replicateToPeer cfg peer
        { r with host := r.host.withNode p node }.move peer worker
          (if dispatch.quits = true then .returned else .calling r.leadership)
      else r
  -- Also the way of a call that finds its context cancelled before it has read anything.
  | .returned peer worker, some _ =>
      if worker ∈ r.workers peer then r.move peer worker .returned else r
  | .finishPeerReplication peer worker, some p =>
      if worker ∈ r.workers peer ∧ worker.phase = .returned then
        { r with host := r.host.withNode p (p.node.finishPeerReplication peer) }.drop peer worker
      else r
  | _, none => r

inductive Step (cfg : Config) (codec : SnapshotCodec) (allowed : Replicator → Event → Prop)
    (r : Replicator) : Replicator → Prop
  | event (event : Event) (admitted : allowed r event) :
      Step cfg codec allowed r (r.step cfg codec event)

abbrev Run (cfg : Config) (codec : SnapshotCodec) (allowed : Replicator → Event → Prop) :
    Replicator → Replicator → Prop :=
  Relation.ReflTransGen (Step cfg codec allowed)

def calls (r : Replicator) (peer : NodeId) : Nat :=
  (r.workers peer).countP fun worker => worker.phase = .calling r.leadership

/-- While the node leads, a goroutine with the slot of an earlier leadership does not start its
call, and does not release the slot while a goroutine of the present leadership has it. -/
def Timely (r : Replicator) : Event → Prop
  | .replicateToPeer _ worker => r.host.leads = true → worker.slot = r.leadership
  | .finishPeerReplication peer worker => r.host.leads = true → worker.slot = r.leadership ∨
      ∀ other ∈ r.workers peer, other.slot ≠ r.leadership
  | _ => True

/-- The goroutine belongs to no leadership that is still to come. -/
def Worker.Past (worker : Worker) (leadership : Nat) : Prop :=
  worker.slot ≤ leadership ∧ ∀ number, worker.phase = .calling number → number ≤ leadership

/-- Each goroutine that has taken its slot in the present leadership has it to itself, and it is
only such goroutines that call in the present leadership. -/
structure Owned (r : Replicator) : Prop where
  past : ∀ peer, ∀ worker ∈ r.workers peer, Worker.Past worker r.leadership
  own : ∀ peer, ∀ worker ∈ r.workers peer, worker.phase = .calling r.leadership →
    worker.slot = r.leadership
  single : ∀ peer, (r.workers peer).countP (fun worker => worker.slot = r.leadership) ≤ 1
  held : ∀ p, r.host.proc = some p → p.node.role = .leader → ∀ peer, ∀ worker ∈ r.workers peer,
    worker.slot = r.leadership → p.node.replicating peer = true

variable {cfg : Config} {codec : SnapshotCodec} {r : Replicator} {p : Proc} {m : Node}
  {peer : NodeId} {worker : Worker} {phase : Phase}

theorem Owned.calls_le (owned : r.Owned) (peer : NodeId) : r.calls peer ≤ 1 := by
  refine le_trans (List.countP_mono_left fun worker member calls => ?_) (owned.single peer)
  exact decide_eq_true (owned.own peer worker member (of_decide_eq_true calls))

theorem Owned.locked (owned : r.Owned) (fates : List Fate) (action : Action) :
    (r.locked (r.host.step cfg codec fates action).1).Owned := by
  generalize reached : (r.host.step cfg codec fates action).1 = next
  cases alive : next.proc with
  | none =>
      have idle (peer : NodeId) : (r.locked next).workers peer = [] := by
        simp [Replicator.locked, alive]
      refine ⟨fun peer => ?_, fun peer => ?_, fun peer => ?_, fun q live => ?_⟩
      · simp [idle]
      · simp [idle]
      · simp [idle]
      · cases alive.symm.trans live
  | some q =>
      have same : (r.locked next).workers = r.workers := by
        funext peer
        simp [Replicator.locked, alive]
      by_cases crowned : r.host.leads = false ∧ next.leads = true
      · -- No goroutine can belong to a leadership that begins only now.
        have number : (r.locked next).leadership = r.leadership + 1 := if_pos crowned
        have slotless (peer : NodeId) (worker : Worker) (member : worker ∈ r.workers peer) :
            worker.slot ≠ r.leadership + 1 := by
          have earlier := (owned.past peer worker member).1
          omega
        refine ⟨?_, ?_, ?_, ?_⟩ <;> rw [number, same]
        · intro peer worker member
          rcases owned.past peer worker member with ⟨slot, called⟩
          exact ⟨slot.trans (Nat.le_succ _), fun other calls =>
            (called other calls).trans (Nat.le_succ _)⟩
        · intro peer worker member calls
          have earlier := (owned.past peer worker member).2 _ calls
          omega
        · intro peer
          rw [List.countP_eq_zero.mpr fun worker member slot =>
            slotless peer worker member (of_decide_eq_true slot)]
          exact Nat.zero_le 1
        · exact fun q live leads peer worker member slot =>
            absurd slot (slotless peer worker member)
      · have number : (r.locked next).leadership = r.leadership := if_neg crowned
        refine ⟨?_, ?_, ?_, ?_⟩ <;> rw [number, same]
        · exact owned.past
        · exact owned.own
        · exact owned.single
        · intro leader live leads peer worker member slot
          have stepped : (r.host.step cfg codec fates action).1.proc = some leader := by
            rw [reached]
            exact live
          cases before : r.host.proc with
          | none =>
              rw [Host.restart_follows before stepped] at leads
              cases leads
          | some p =>
              have led : p.node.role = .leader := by
                by_contra stood
                apply crowned
                constructor
                · rw [← Bool.not_eq_true, Host.leads_live before]
                  exact stood
                · exact (Host.leads_live live).mpr leads
              rw [Host.step_slots before stepped led leads]
              exact owned.held p before led peer worker member slot

theorem Owned.take (owned : r.Owned) (live : r.host.proc = some p) (leads : p.node.role = .leader)
    {peers : Finset NodeId} (free : ∀ peer ∈ peers, p.node.replicating peer = false)
    (taken : ∀ peer, m.replicating peer = true ↔ p.node.replicating peer = true ∨ peer ∈ peers) :
    ({ r with host := r.host.withNode p m }.take peers).Owned := by
  have earlier {peer : NodeId} {worker : Worker}
      (member : worker ∈ ({ r with host := r.host.withNode p m }.take peers).workers peer) :
      worker = { slot := r.leadership } ∨ worker ∈ r.workers peer := by
    simp only [Replicator.take] at member
    split at member
    · exact List.mem_cons.mp member
    · exact Or.inr member
  refine ⟨fun peer worker member => ?_, fun peer worker member calls => ?_, fun peer => ?_,
    fun q alive leading peer worker member slot => ?_⟩
  · rcases earlier member with rfl | old
    · refine ⟨le_rfl, fun number calls => ?_⟩
      cases calls
    · exact owned.past peer worker old
  · rcases earlier member with rfl | old
    · rfl
    · exact owned.own peer worker old calls
  · simp only [Replicator.take]
    split
    · rename_i chosen
      have idle : (r.workers peer).countP (fun worker => worker.slot = r.leadership) = 0 := by
        refine List.countP_eq_zero.mpr fun worker member slot => ?_
        have held := owned.held p live leads peer worker member (of_decide_eq_true slot)
        rw [free peer chosen] at held
        cases held
      rw [List.countP_cons, idle]
      split <;> omega
    · exact owned.single peer
  · cases alive
    rw [taken]
    by_cases chosen : peer ∈ peers
    · exact Or.inr chosen
    · simp only [Replicator.take, if_neg chosen] at member
      exact Or.inl (owned.held p live leads peer worker member slot)

/-- A goroutine goes on; where it starts a call, it has its slot from the present leadership. -/
theorem Owned.move (owned : r.Owned) (member : worker ∈ r.workers peer)
    (started : ∀ number, phase = .calling number → number = r.leadership ∧
      worker.slot = r.leadership) :
    (r.move peer worker phase).Owned := by
  have cases_of {other : NodeId} {moved : Worker}
      (present : moved ∈ (r.move peer worker phase).workers other) :
      (other = peer ∧ moved = { worker with phase := phase }) ∨ moved ∈ r.workers other := by
    by_cases same : other = peer
    · subst same
      simp only [Replicator.move, Function.update_self, List.mem_cons] at present
      exact present.imp (fun new => ⟨rfl, new⟩) List.mem_of_mem_erase
    · simp only [Replicator.move, Function.update_of_ne same] at present
      exact Or.inr present
  refine ⟨fun other moved present => ?_, fun other moved present calls => ?_, fun other => ?_,
    fun q alive leading other moved present slot => ?_⟩
  · rcases cases_of present with ⟨rfl, rfl⟩ | old
    · exact ⟨(owned.past other worker member).1, fun number calls => (started number calls).1.le⟩
    · exact owned.past other moved old
  · rcases cases_of present with ⟨rfl, rfl⟩ | old
    · exact (started _ calls).2
    · exact owned.own other moved old calls
  · by_cases same : other = peer
    · subst same
      have taken := owned.single other
      rw [(List.perm_cons_erase member).countP_eq] at taken
      simp only [Replicator.move, Function.update_self]
      exact taken
    · simp only [Replicator.move, Function.update_of_ne same]
      exact owned.single other
  · rcases cases_of present with ⟨rfl, rfl⟩ | old
    · exact owned.held q alive leading other worker member slot
    · exact owned.held q alive leading other moved old slot

theorem Owned.withNode (owned : r.Owned) (live : r.host.proc = some p) (role : m.role = p.node.role)
    (slots : m.replicating = p.node.replicating) :
    Owned { r with host := r.host.withNode p m } where
  past := owned.past
  own := owned.own
  single := owned.single
  held := by
    intro q alive leading other worker member slot
    cases alive
    rw [slots]
    exact owned.held p live (role ▸ leading) other worker member slot

theorem Owned.drop (owned : r.Owned) (live : r.host.proc = some p)
    (member : worker ∈ r.workers peer) (timely : r.Timely (.finishPeerReplication peer worker)) :
    ({ r with host := r.host.withNode p (p.node.finishPeerReplication peer) }.drop peer
      worker).Owned := by
  have earlier {other : NodeId} {left : Worker}
      (present : left ∈ (r.drop peer worker).workers other) :
      left ∈ r.workers other := by
    by_cases same : other = peer
    · subst same
      simp only [Replicator.drop, Function.update_self] at present
      exact List.mem_of_mem_erase present
    · simp only [Replicator.drop, Function.update_of_ne same] at present
      exact present
  refine ⟨fun other left present => owned.past other left (earlier present),
    fun other left present => owned.own other left (earlier present), fun other => ?_,
    fun q alive leading other left present slot => ?_⟩
  · by_cases same : other = peer
    · subst same
      simp only [Replicator.drop, Function.update_self]
      exact (List.erase_sublist.countP_le).trans (owned.single other)
    · simp only [Replicator.drop, Function.update_of_ne same]
      exact owned.single other
  · cases alive
    by_cases same : other = peer
    · subst same
      -- After the release no goroutine of this leadership may be left.
      exfalso
      rcases timely ((Host.leads_live live).mpr leading) with mine | idle
      · have single := owned.single other
        rw [(List.perm_cons_erase member).countP_eq,
          List.countP_cons_of_pos (by simpa using mine)] at single
        simp only [Replicator.drop, Function.update_self] at present
        have left : 0 < ((r.workers other).erase worker).countP fun worker =>
            worker.slot = r.leadership :=
          List.countP_pos_iff.mpr ⟨left, present, decide_eq_true slot⟩
        omega
      · exact idle left (earlier present) slot
    · simp only [Node.finishPeerReplication, Function.update_of_ne same]
      exact owned.held p live leading other left (earlier present) slot

theorem Owned.step (owned : r.Owned) {event : Event} (timely : r.Timely event) :
    (r.step cfg codec event).Owned := by
  cases live : r.host.proc with
  | none =>
      cases event with
      | locked fates action =>
          unfold Replicator.step
          exact owned.locked fates action
      | _ =>
          simp only [Replicator.step, live]
          exact owned
  | some p =>
      cases event with
      | locked fates action =>
          unfold Replicator.step
          exact owned.locked fates action
      | replicateAllOnce =>
          simp only [Replicator.step, live, Node.replicateAllOnce]
          by_cases stopped : p.node.stopped = true
          · simp only [if_pos stopped]
            exact owned
          by_cases leads : p.node.role = .leader
          · simp only [if_neg stopped, ne_eq, leads, not_true, if_false]
            apply owned.take live leads
            · intro peer member
              exact (Finset.mem_filter.mp member).2
            · intro peer
              by_cases known : peer ∈ cfg.peerAddrs <;> simp [known]
          · simp only [if_neg stopped, ne_eq, leads, not_false_iff, if_true]
            exact owned
      | acquirePeerReplication peer =>
          simp only [Replicator.step, live, Node.acquirePeerReplication]
          by_cases unfit : p.node.stopped = true ∨ p.node.storageFatal = true ∨
            p.node.role ≠ .leader
          · simp only [if_pos unfit]
            exact owned
          by_cases free : p.node.replicating peer = false
          · simp only [if_neg unfit, if_pos free]
            push Not at unfit
            apply owned.take live unfit.2.2
            · intro other member
              rw [Finset.mem_singleton.mp member]
              exact free
            · intro other
              by_cases same : other = peer <;> simp [same]
          · simp only [if_neg unfit, if_neg free]
            exact owned
      | replicateToPeer peer worker =>
          simp only [Replicator.step, live]
          split
          · rename_i waits
            rcases Node.replicateToPeer_eq p.node cfg peer with ⟨⟨nextIndex, memory⟩, -⟩
            have unchanged : Owned
                { r with host := r.host.withNode p (p.node.replicateToPeer cfg peer).1 } := by
              rw [memory]
              exact owned.withNode live rfl rfl
            refine unchanged.move waits.1 fun number calls => ?_
            split at calls
            · cases calls
            · rename_i goes
              cases calls
              exact ⟨rfl, timely ((Host.leads_live live).mpr (Node.leader_of_dispatch goes))⟩
          · exact owned
      | returned peer worker =>
          simp only [Replicator.step, live]
          split
          · rename_i member
            exact owned.move member fun number calls => Phase.noConfusion calls
          · exact owned
      | finishPeerReplication peer worker =>
          simp only [Replicator.step, live]
          split
          · rename_i done
            exact owned.drop live done.1 timely
          · exact owned

theorem Owned.run {final : Replicator} (owned : r.Owned) (run : Run cfg codec Timely r final) :
    final.Owned := by
  induction run with
  | refl => exact owned
  | tail _ step ih =>
      cases step with
      | event event timely => exact ih.step timely

theorem owned_down {host : Host} (down : host.proc = none) : Owned { host := host } := by
  -- A machine that is down runs no goroutine.
  refine ⟨fun peer => ?_, fun peer => ?_, fun peer => ?_, fun p live => ?_⟩
  · simp
  · simp
  · simp
  · cases down.symm.trans live

/-- At most one call of the present leadership is running for each peer. -/
theorem one_call_in_flight {host : Host} {final : Replicator} (down : host.proc = none)
    (run : Run cfg codec Timely { host := host } final) (peer : NodeId) : final.calls peer ≤ 1 :=
  ((owned_down down).run run).calls_le peer

def after (r : Replicator) (cfg : Config) (codec : SnapshotCodec) (events : List Event) :
    Replicator :=
  events.foldl (fun r event => r.step cfg codec event) r

/-- Each event is admitted when its turn comes. -/
def Admitted (cfg : Config) (codec : SnapshotCodec) (allowed : Replicator → Event → Prop) :
    Replicator → List Event → Prop
  | _, [] => True
  | r, event :: events =>
      allowed r event ∧ Admitted cfg codec allowed (r.step cfg codec event) events

theorem run_after {allowed : Replicator → Event → Prop} {events : List Event}
    (admitted : Admitted cfg codec allowed r events) :
    Run cfg codec allowed r (r.after cfg codec events) := by
  induction events generalizing r with
  | nil => exact .refl
  | cons event events ih => exact .head (.event event admitted.1) (ih admitted.2)

def leading (term number : Nat) : List Event :=
  [.locked [] .startElection, .locked [] (.becomeLeader term), .replicateAllOnce,
   .replicateToPeer "b" { slot := number }]

/-- A leadership, a step-down and a new leadership, with the call of the first one still running. -/
def reelected : List Event :=
  .locked [] .restart :: leading 1 1 ++ .locked [] (.stepDown 2 "") :: leading 3 2

/-- The present leadership has called b once, next to the call of the first leadership. -/
theorem one_call_in_flight_reelected :
    (after { host := {} } (trio "a") SnapshotJson.codec reelected).workers "b" =
        [{ slot := 2, phase := .calling 2 }, { slot := 1, phase := .calling 1 }] ∧
      (after { host := {} } (trio "a") SnapshotJson.codec reelected).calls "b" ≤ 1 := by
  have timely : Admitted (trio "a") SnapshotJson.codec Timely { host := {} } reelected := by
    simp only [reelected, leading, Admitted, Timely, List.cons_append, List.nil_append]
    decide +kernel
  exact ⟨by decide +kernel, one_call_in_flight rfl (run_after timely) "b"⟩

/-- The call of the first leadership returns, and its goroutine releases the slot that the second
one has taken. -/
def released : List Event :=
  reelected ++
    [.returned "b" { slot := 1, phase := .calling 1 },
     .finishPeerReplication "b" { slot := 1, phase := .returned }, .replicateAllOnce,
     .replicateToPeer "b" { slot := 2 }]

theorem two_calls_in_flight : ∃ final,
    Run (trio "a") SnapshotJson.codec (fun _ _ => True) { host := {} } final ∧
      final.host.leads = true ∧ final.calls "b" = 2 := by
  refine ⟨after { host := {} } (trio "a") SnapshotJson.codec released, run_after ?_, ?_⟩
  · simp [released, reelected, leading, Admitted]
  · decide +kernel

end Replicator

end GoRaftKV.Raft
