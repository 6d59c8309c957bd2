import GoRaftKV.Raft.Host
import Mathlib.Logic.Relation

namespace GoRaftKV.Raft

open Storage Library

/-- The members of a cluster, all configured with the same `Peers`, and the codec they share. -/
structure Setting where
  peers : Finset NodeId
  config : NodeId → Config
  codec : SnapshotCodec
  config_id : ∀ id, (config id).id = id
  config_peers : ∀ id, (config id).peers = peers

/-- The identifiers that `NewNode` accepts. -/
def Setting.members (setting : Setting) : Finset NodeId := setting.peers.erase ""

/-- A request handed to the transport at time `issued`. The transport may deliver it at any time,
any number of times or never. -/
structure Call where
  sender : NodeId
  receiver : NodeId
  request : Request
  issued : Nat

structure Campaign where
  node : NodeId
  request : RequestVoteRequest

/-- A `Propose` call whose command has been accepted as `entry`. -/
structure Proposal where
  node : NodeId
  chan : ChanId
  entry : LogEntry

structure Answer where
  node : NodeId
  chan : ChanId
  result : ApplyResult
  error : Option NodeError
  time : Nat

/-- Where a `LinearizableGet` stands: before its barrier, collecting the acknowledgements of the
barrier begun at `since`, and then between its locked sections. -/
inductive ReadStage where
  | begun
  | barrier (term since : Nat) (acked : Finset NodeId)
  | confirmed (term : Nat)
  | waiting (term index : Nat)
  | applied (term : Nat)
  | returned (value : String × Bool)

structure Read where
  node : NodeId
  key : String
  invoked : Nat
  stage : ReadStage

/-- A `LinearizableGet` that has returned `value`. `history` is a ghost: the entries folded into the
state machine it read. -/
structure Get where
  node : NodeId
  key : String
  invoked : Nat
  finished : Nat
  value : String × Bool
  history : List LogEntry

/-- The machines, what has been handed to the transport and what has come back, and the client
calls. `acks` numbers the calls on which `replicateToPeer` has returned true, `shipped` those whose
answer `sendSnapshot` has accepted. -/
structure Cluster where
  hosts : NodeId → Host := fun _ => {}
  calls : List Call := []
  replies : List (Nat × Response) := []
  campaigns : List Campaign := []
  streams : List Stream := []
  shipped : List Nat := []
  acks : List Nat := []
  proposals : List Proposal := []
  answers : List Answer := []
  reads : List Read := []
  gets : List Get := []
  clock : Nat := 0

inductive Event where
  | local (id : NodeId) (action : Action) (fates : List Fate)
  | propose (id : NodeId) (command : Command) (fates : List Fate)
  | answer (id : NodeId) (chan : ChanId)
  | cancel (id : NodeId) (chan : ChanId)
  | campaign (id : NodeId) (fates : List Fate)
  | solicit (campaign : Nat) (peer : NodeId)
  | win (campaign : Nat) (fates : List Fate)
  | replicate (id peer : NodeId)
  | chunk (stream offset : Nat)
  | deliver (call : Nat) (fates : List Fate)
  | reply (reply : Nat) (fates : List Fate)
  | shipped (call : Nat)
  | get (id : NodeId) (key : String)
  | read (read : Nat)
  | ack (read call : Nat)
  | giveUp (read : Nat)

def Event.fates : Event → List Fate
  | .local _ _ fates => fates
  | .propose _ _ fates => fates
  | .campaign _ fates => fates
  | .win _ fates => fates
  | .deliver _ fates => fates
  | .reply _ fates => fates
  | _ => []

/-- The sections that neither a message nor a client triggers. -/
def Action.isLocal : Action → Bool
  | .installDecoded | .applyNext | .applyEntry | .applyDone | .persistCheck _ | .persistSave
  | .persistEnd | .stop | .crash | .restart => true
  | _ => false

/-- The section that handles request number `call`. -/
def Request.action (call : Nat) : Request → Action
  | .vote req => .requestVote req
  | .append req => .appendEntries req
  | .snapshot req => .installSnapshot call req

/-- The section with which the caller takes in a response. -/
def Call.replied (call : Call) (resp : Response) : Option Action :=
  match call.request, resp with
  | .vote req, .vote resp => if req.term < resp.term then some (.stepDown resp.term "") else none
  | .append req, .append resp => some (.replicateReply call.receiver req resp)
  | .snapshot req, .snapshot resp => some (.snapshotReply req.term resp)
  | _, _ => none

/-- The locked sections of `LinearizableGet`; `none` stands for an error or for waiting. -/
def Read.advance (read : Read) (cfg : Config) (n : Node) (clock : Nat) : Option ReadStage :=
  if n.stopped = true ∨ n.role ≠ .leader then none
  else
    match read.stage with
    | .begun => some (.barrier n.currentTerm clock ∅)
    | .barrier term _ acked =>
        if cfg.quorum ≤ 1 + acked.card ∧ n.currentTerm = term then some (.confirmed term) else none
    | .confirmed term =>
        if n.currentTerm = term then some (.waiting term (max n.commitIndex n.leaderNoopIndex))
        else some .begun
    | .waiting term index =>
        if index ≤ n.lastApplied ∧ n.storageFatal = false ∧ n.currentTerm = term then
          some (.applied term)
        else none
    | .applied term =>
        if n.currentTerm = term then some (.returned (KVStateMachine.get n.sm read.key))
        else some .begun
    | .returned _ => none

/-- A locked section to run, and the number of the call it handles. -/
structure Task where
  node : NodeId
  action : Action
  fates : List Fate := []
  call : Nat := 0

namespace Cluster

def granted (w : Cluster) (setting : Setting) (campaign : Campaign) : Finset NodeId :=
  (setting.config campaign.node).peerAddrs.filter fun peer =>
    w.replies.any fun (number, resp) =>
      match w.calls[number]?, resp with
      | some call, .vote resp =>
          call.sender = campaign.node ∧ call.receiver = peer ∧
            call.request = .vote campaign.request ∧ resp.voteGranted = true
      | _, _ => false

def waiting (w : Cluster) (id : NodeId) (chan : ChanId) : Option (Node × LogEntry) :=
  match (w.hosts id).proc with
  | none => none
  | some proc =>
      if w.answers.any fun answer => answer.node = id ∧ answer.chan = chan then none
      else (proc.node.proposed.find? fun made => made.1 = chan).map fun made => (proc.node, made.2)

/-- The section an event runs, if it runs one and may happen. -/
def server (w : Cluster) (setting : Setting) : Event → Option Task
  | .local id action fates => if action.isLocal = true then some ⟨id, action, fates, 0⟩ else none
  | .propose id command fates => some ⟨id, .propose command, fates, 0⟩
  | .cancel id chan =>
      (w.waiting id chan).map fun (_, entry) => ⟨id, .cancel entry.index chan, [], 0⟩
  | .campaign id fates => some ⟨id, .startElection, fates, 0⟩
  | .win number fates =>
      match w.campaigns[number]? with
      | some campaign =>
          if (setting.config campaign.node).quorum ≤ 1 + (w.granted setting campaign).card then
            some ⟨campaign.node, .becomeLeader campaign.request.term, fates, 0⟩
          else none
      | none => none
  | .replicate id peer =>
      if peer ∈ (setting.config id).peerAddrs then some ⟨id, .replicate peer, [], 0⟩ else none
  | .deliver number fates =>
      match w.calls[number]? with
      | some call => some ⟨call.receiver, call.request.action number, fates, number⟩
      | none => none
  | .reply number fates =>
      match w.replies[number]? with
      | some (sent, resp) =>
          match w.calls[sent]? with
          | some call => (call.replied resp).map fun action => ⟨call.sender, action, fates, sent⟩
          | none => none
      | none => none
  | .shipped number =>
      match w.calls[number]? with
      | some ⟨sender, receiver, .snapshot req, _⟩ =>
          if number ∈ w.shipped ∧ req.done = true then
            some ⟨sender, .snapshotSent receiver req.term req.lastIncludedIndex, [], number⟩
          else none
      | _ => none
  | _ => none

def send (w : Cluster) (sender receiver : NodeId) (request : Request) : Cluster :=
  { w with calls := w.calls ++ [⟨sender, receiver, request, w.clock⟩] }

/-- What `Propose` returns once it has received `outcome`, or nothing at all. -/
def answered (w : Cluster) (id : NodeId) (chan : ChanId) (answer : ApplyResult × Option NodeError) :
    Cluster :=
  { w with answers := w.answers ++ [⟨id, chan, answer.1, answer.2, w.clock⟩] }

/-- What a section hands to the transport, to the loops of its node or to a client. -/
def record (w : Cluster) (setting : Setting) (task : Task) : Output → Cluster
  | .nothing => w
  | .vote resp => { w with replies := w.replies ++ [(task.call, .vote resp)] }
  | .append resp => { w with replies := w.replies ++ [(task.call, .append resp)] }
  | .snapshot call resp => { w with replies := w.replies ++ [(call, .snapshot resp)] }
  | .proposed chan (.ok entry) => { w with proposals := w.proposals ++ [⟨task.node, chan, entry⟩] }
  | .proposed chan (.error err) => w.answered task.node chan ({}, some err)
  | .cancelled _ chan (some outcome) => w.answered task.node chan (resultFromOutcome outcome)
  | .cancelled index chan none => w.answered task.node chan ({}, some (.proposalUnknown index))
  | .campaign req => { w with campaigns := w.campaigns ++ [⟨task.node, req⟩] }
  | .dispatch peer (.append req) => w.send task.node peer (.append req)
  | .dispatch peer (.snapshot term snapshot) =>
      let chunkSize := (setting.config task.node).snapshotChunkBytes
      { w with
        streams := w.streams ++ [
          { node := task.node, peer := peer, term := term, snapshot := snapshot
            chunkSize := if chunkSize = 0 then defaultSnapshotChunkBytes else chunkSize }] }
  | .dispatch _ _ => w
  | .replicated _ acked => if acked then { w with acks := w.acks ++ [task.call] } else w
  | .chunkAcked acked => if acked then { w with shipped := w.shipped ++ [task.call] } else w

def outcome (w : Cluster) (setting : Setting) (task : Task) : Host × Output :=
  (w.hosts task.node).step (setting.config task.node) setting.codec task.fates task.action

/-- A new state of one machine. The reads in progress on a node end with its process. -/
def settle (w : Cluster) (id : NodeId) (host : Host) : Cluster :=
  { w with
    hosts := Function.update w.hosts id host
    reads := if host.proc.isNone then w.reads.filter fun read => read.node ≠ id else w.reads }

def serve (w : Cluster) (setting : Setting) (task : Task) : Cluster :=
  (w.settle task.node (w.outcome setting task).1).record setting task (w.outcome setting task).2

/-- The events that run no section of a node: requests on their way out, and clients. -/
def client (w : Cluster) (setting : Setting) : Event → Option Cluster
  | .solicit number peer =>
      match w.campaigns[number]? with
      | some campaign =>
          if peer ∈ (setting.config campaign.node).peerAddrs then
            some (w.send campaign.node peer (.vote campaign.request))
          else none
      | none => none
  | .chunk number offset =>
      match w.streams[number]? with
      | some stream =>
          if offset ≤ (setting.codec.marshal stream.snapshot.data).length then
            some (w.send stream.node stream.peer (.snapshot (stream.chunk setting.codec offset)))
          else none
      | none => none
  | .answer id chan =>
      match w.waiting id chan with
      | some (n, _) =>
          (n.received chan).map fun outcome => w.answered id chan (resultFromOutcome outcome)
      | none => none
  | .get id key =>
      if (w.hosts id).proc.isSome then
        some { w with reads := w.reads ++ [⟨id, key, w.clock, .begun⟩] }
      else none
  | .read number =>
      match w.reads[number]? with
      | some read =>
          match (w.hosts read.node).proc with
          | some proc =>
              match read.advance (setting.config read.node) proc.node w.clock with
              | some (.returned value) =>
                  some { w with
                    reads := w.reads.eraseIdx number
                    gets := w.gets ++ [
                      ⟨read.node, read.key, read.invoked, w.clock, value, proc.node.history⟩] }
              | some stage =>
                  some { w with reads := w.reads.set number { read with stage := stage } }
              | none => none
          | none => none
      | none => none
  | .ack number sent =>
      match w.reads[number]?, w.calls[sent]? with
      | some read, some call =>
          match read.stage, (w.hosts read.node).proc with
          | .barrier term since acked, some proc =>
              if sent ∈ w.acks ∧ call.sender = read.node ∧ since < call.issued ∧
                  proc.node.role = .leader ∧ proc.node.currentTerm = term then
                let stage := .barrier term since (insert call.receiver acked)
                some { w with reads := w.reads.set number { read with stage := stage } }
              else none
          | _, _ => none
      | _, _ => none
  | .giveUp number => some { w with reads := w.reads.eraseIdx number }
  | _ => none

def tick (w : Cluster) : Cluster := { w with clock := w.clock + 1 }

/-- One event of the cluster; `none` when it cannot happen. -/
def step (w : Cluster) (setting : Setting) (event : Event) : Option Cluster :=
  match w.server setting event with
  | some task => if task.node ∈ setting.members then some (w.serve setting task).tick else none
  | none => (w.client setting event).map tick

/-- One event that `allowed` admits. -/
inductive Step (setting : Setting) (allowed : Cluster → Event → Prop) (w : Cluster) : Cluster → Prop
  | event (event : Event) (next : Cluster) (admitted : allowed w event)
      (taken : w.step setting event = some next) : Step setting allowed w next

/-- Any number of such events. -/
abbrev Run (setting : Setting) (allowed : Cluster → Event → Prop) : Cluster → Cluster → Prop :=
  Relation.ReflTransGen (Step setting allowed)

def initial : Cluster := {}

def Unwrapped (w : Cluster) : Event → Prop
  | .campaign id _ => ∀ proc ∈ (w.hosts id).proc, proc.node.currentTerm + 1 < uint64Size
  | _ => True

instance (w : Cluster) (event : Event) : Decidable (w.Unwrapped event) := by
  unfold Unwrapped
  split <;> infer_instance

/-- Every store call completes or its machine crashes. -/
def Reliable (w : Cluster) (event : Event) : Prop :=
  Program.Errorless event.fates ∧ w.Unwrapped event

instance (w : Cluster) (event : Event) : Decidable (w.Reliable event) :=
  inferInstanceAs (Decidable (_ ∧ _))

/-- Store calls may also return an error that leaves nothing behind. -/
def Faulty (w : Cluster) (event : Event) : Prop :=
  Program.Traceless event.fates ∧ w.Unwrapped event

instance (w : Cluster) (event : Event) : Decidable (w.Faulty event) :=
  inferInstanceAs (Decidable (_ ∧ _))

/-- The cluster after a list of events, if all of them are admitted and can happen. -/
def play (setting : Setting) (allowed : Cluster → Event → Prop)
    [∀ w event, Decidable (allowed w event)] (w : Cluster) : List Event → Option Cluster
  | [] => some w
  | event :: events =>
      if allowed w event then
        match w.step setting event with
        | some next => play setting allowed next events
        | none => none
      else none

theorem play_run {setting : Setting} {allowed : Cluster → Event → Prop}
    [∀ w event, Decidable (allowed w event)] {w final : Cluster} {events : List Event}
    (played : play setting allowed w events = some final) : Run setting allowed w final := by
  induction events generalizing w with
  | nil =>
      cases played
      exact .refl
  | cons event events ih =>
      simp only [play] at played
      split at played
      · rename_i admitted
        split at played
        · rename_i next taken
          exact .head (.event event next admitted taken) (ih played)
        · cases played
      · cases played

theorem play_any {setting : Setting} {allowed : Cluster → Event → Prop}
    [∀ w event, Decidable (allowed w event)] {w : Cluster} {events : List Event}
    {check : Cluster → Bool} (played : (play setting allowed w events).any check = true) :
    ∃ final, Run setting allowed w final ∧ check final = true := by
  cases reached : play setting allowed w events with
  | none =>
      rw [reached] at played
      cases played
  | some final =>
      rw [reached] at played
      exact ⟨final, play_run reached, played⟩

def holdsAt (w : Cluster) (id : NodeId) (check : Proc → Bool) : Bool := (w.hosts id).proc.any check

theorem holdsAt_proc {w : Cluster} {id : NodeId} {check : Proc → Bool}
    (holds : w.holdsAt id check = true) :
    ∃ p, (w.hosts id).proc = some p ∧ check p = true := by
  unfold holdsAt at holds
  cases live : (w.hosts id).proc with
  | none =>
      rw [live] at holds
      cases holds
  | some p =>
      rw [live] at holds
      exact ⟨p, rfl, holds⟩

end Cluster

end GoRaftKV.Raft
