import GoRaftKV.Raft.Cluster
import GoRaftKV.Raft.HostSteps

namespace GoRaftKV.Raft

open Storage Library

def Output.reply (call : Nat) : Output → Option (Nat × Response)
  | .vote resp => some (call, .vote resp)
  | .append resp => some (call, .append resp)
  | .snapshot number resp => some (number, .snapshot resp)
  | _ => none

namespace Cluster

variable {setting : Setting} {w next : Cluster} {event : Event} {task : Task}

/-- An event runs one section of one member, or none at all. -/
theorem step_cases (taken : w.step setting event = some next) :
    (∃ task, w.server setting event = some task ∧ task.node ∈ setting.members ∧
      next = (w.serve setting task).tick) ∨
    (∃ mid, w.client setting event = some mid ∧ next = mid.tick) := by
  unfold step at taken
  cases ran : w.server setting event with
  | some task =>
      simp only [ran] at taken
      split at taken
      · rename_i member
        exact Or.inl ⟨task, rfl, member, (Option.some.inj taken).symm⟩
      · cases taken
  | none =>
      simp only [ran, Option.map_eq_some_iff] at taken
      rcases taken with ⟨mid, handled, rfl⟩
      exact Or.inr ⟨mid, handled, rfl⟩

/-- What is on record about a section before it runs. -/
def Asked (w : Cluster) (setting : Setting) (task : Task) : Prop :=
  match task.action with
  | .requestVote req =>
      ∃ sender issued, w.calls[task.call]? = some ⟨sender, task.node, .vote req, issued⟩
  | .appendEntries req =>
      ∃ sender issued, w.calls[task.call]? = some ⟨sender, task.node, .append req, issued⟩
  | .installSnapshot call req =>
      call = task.call ∧
        ∃ sender issued, w.calls[task.call]? = some ⟨sender, task.node, .snapshot req, issued⟩
  | .becomeLeader term =>
      ∃ campaign ∈ w.campaigns, campaign.node = task.node ∧ campaign.request.term = term ∧
        (setting.config campaign.node).quorum ≤ 1 + (w.granted setting campaign).card
  | .replicate peer => peer ∈ (setting.config task.node).peerAddrs
  | .replicateReply peer req resp =>
      (task.call, .append resp) ∈ w.replies ∧
        ∃ issued, w.calls[task.call]? = some ⟨task.node, peer, .append req, issued⟩
  | .snapshotReply term resp =>
      (task.call, .snapshot resp) ∈ w.replies ∧ ∃ receiver req issued, req.term = term ∧
        w.calls[task.call]? = some ⟨task.node, receiver, .snapshot req, issued⟩
  | .snapshotSent peer term snapIdx =>
      task.call ∈ w.shipped ∧ ∃ req issued, req.term = term ∧ req.lastIncludedIndex = snapIdx ∧
        req.done = true ∧ w.calls[task.call]? = some ⟨task.node, peer, .snapshot req, issued⟩
  | .cancel index chan =>
      ∃ proc entry, (w.hosts task.node).proc = some proc ∧ (chan, entry) ∈ proc.node.proposed ∧
        entry.index = index ∧ ∀ answer ∈ w.answers, ¬ (answer.node = task.node ∧ answer.chan = chan)
  | _ => True

theorem waiting_some {id : NodeId} {chan : ChanId} {n : Node} {entry : LogEntry}
    (waits : w.waiting id chan = some (n, entry)) :
    ∃ proc, (w.hosts id).proc = some proc ∧ proc.node = n ∧ (chan, entry) ∈ n.proposed ∧
      ∀ answer ∈ w.answers, ¬ (answer.node = id ∧ answer.chan = chan) := by
  unfold waiting at waits
  split at waits
  · cases waits
  · rename_i proc live
    split at waits
    · cases waits
    · rename_i fresh
      simp only [Option.map_eq_some_iff] at waits
      rcases waits with ⟨⟨other, made⟩, found, same⟩
      have member := List.mem_of_find?_eq_some found
      have key := List.find?_some found
      simp only [decide_eq_true_eq] at key
      cases same
      cases key
      refine ⟨proc, live, rfl, member, fun answer known both => fresh ?_⟩
      exact List.any_eq_true.mpr ⟨answer, known, by simpa using both⟩

/-- An event that runs no section hands a request to the transport, lets a `Propose` call return, or
begins, moves on or ends a `LinearizableGet`. -/
inductive Handled (setting : Setting) (w : Cluster) : Cluster → Prop
  | solicit (campaign : Campaign) (peer : NodeId) (standing : campaign ∈ w.campaigns)
      (known : peer ∈ (setting.config campaign.node).peerAddrs) :
      Handled setting w (w.send campaign.node peer (.vote campaign.request))
  | chunk (stream : Stream) (offset : Nat) (begun : stream ∈ w.streams)
      (bound : offset ≤ (setting.codec.marshal stream.snapshot.data).length) :
      Handled setting w
        (w.send stream.node stream.peer (.snapshot (stream.chunk setting.codec offset)))
  | answer (id : NodeId) (chan : ChanId) (p : Proc) (outcome : ApplyOutcome)
      (live : (w.hosts id).proc = some p) (received : p.node.received chan = some outcome) :
      Handled setting w (w.answered id chan (resultFromOutcome outcome))
  | get (id : NodeId) (key : String) (live : (w.hosts id).proc.isSome) :
      Handled setting w { w with reads := w.reads ++ [⟨id, key, w.clock, .begun⟩] }
  | advance (number : Nat) (read : Read) (p : Proc) (stage : ReadStage)
      (found : w.reads[number]? = some read) (live : (w.hosts read.node).proc = some p)
      (moved : read.advance (setting.config read.node) p.node w.clock = some stage) :
      Handled setting w { w with reads := w.reads.set number { read with stage := stage } }
  | finish (number : Nat) (read : Read) (p : Proc) (value : String × Bool)
      (found : w.reads[number]? = some read) (live : (w.hosts read.node).proc = some p)
      (moved : read.advance (setting.config read.node) p.node w.clock = some (.returned value)) :
      Handled setting w
        { w with
          reads := w.reads.eraseIdx number
          gets := w.gets ++ [⟨read.node, read.key, read.invoked, w.clock, value, p.node.history⟩] }
  | ack (number sent : Nat) (read : Read) (call : Call) (p : Proc) (term since : Nat)
      (acked : Finset NodeId) (found : w.reads[number]? = some read)
      (stage : read.stage = .barrier term since acked) (live : (w.hosts read.node).proc = some p)
      (made : w.calls[sent]? = some call) (counted : sent ∈ w.acks) (own : call.sender = read.node)
      (fresh : since < call.issued) (leads : p.node.role = .leader)
      (current : p.node.currentTerm = term) :
      Handled setting w
        { w with
          reads := w.reads.set number
            { read with stage := .barrier term since (insert call.receiver acked) } }
  | giveUp (number : Nat) : Handled setting w { w with reads := w.reads.eraseIdx number }

theorem client_cases {mid : Cluster} (handled : w.client setting event = some mid) :
    w.Handled setting mid := by
  unfold client at handled
  split at handled
  case h_1 number peer =>
    split at handled
    · rename_i campaign found
      split at handled
      · rename_i known
        cases handled
        exact .solicit campaign peer (List.mem_of_getElem? found) known
      · cases handled
    · cases handled
  case h_2 number offset =>
    split at handled
    · rename_i stream found
      split at handled
      · rename_i bound
        cases handled
        exact .chunk stream offset (List.mem_of_getElem? found) bound
      · cases handled
    · cases handled
  case h_3 id chan =>
    split at handled
    · rename_i n entry waits
      simp only [Option.map_eq_some_iff] at handled
      rcases handled with ⟨outcome, received, rfl⟩
      rcases waiting_some waits with ⟨p, live, rfl, -, -⟩
      exact .answer id chan p outcome live received
    · cases handled
  case h_4 id key =>
    split at handled
    · rename_i live
      cases handled
      exact .get id key live
    · cases handled
  case h_5 number =>
    split at handled
    · rename_i read found
      split at handled
      · rename_i p live
        split at handled
        · rename_i value moved
          cases handled
          exact .finish number read p value found live moved
        · rename_i stage _ moved
          cases handled
          exact .advance number read p stage found live moved
        · cases handled
      · cases handled
    · cases handled
  case h_6 number sent =>
    split at handled
    · rename_i read call found made
      split at handled
      · rename_i term since acked p stage live
        split at handled
        · rename_i counts
          rcases counts with ⟨counted, own, fresh, leads, current⟩
          cases handled
          exact .ack number sent read call p term since acked found stage live made counted own
            fresh leads current
        · cases handled
      · cases handled
    · cases handled
  case h_7 number =>
    cases handled
    exact .giveUp number
  case h_8 => cases handled

theorem local_asked {id : NodeId} {action : Action} {fates : List Fate}
    (own : action.isLocal = true) :
    w.Asked setting ⟨id, action, fates, 0⟩ := by
  cases action <;> trivial

theorem server_asked (ran : w.server setting event = some task) : w.Asked setting task := by
  unfold server at ran
  split at ran
  case h_1 id action fates =>
    split at ran
    · rename_i own
      cases ran
      exact local_asked own
    · cases ran
  case h_2 id command fates =>
    cases ran
    trivial
  case h_3 id chan =>
    simp only [Option.map_eq_some_iff] at ran
    rcases ran with ⟨⟨n, entry⟩, waits, rfl⟩
    rcases waiting_some waits with ⟨proc, live, rfl, member, fresh⟩
    exact ⟨proc, entry, live, member, rfl, fresh⟩
  case h_4 id fates =>
    cases ran
    trivial
  case h_5 number fates =>
    split at ran
    · rename_i campaign found
      split at ran
      · rename_i enough
        cases ran
        exact ⟨campaign, List.mem_of_getElem? found, rfl, rfl, enough⟩
      · cases ran
    · cases ran
  case h_6 id peer =>
    split at ran
    · rename_i member
      cases ran
      exact member
    · cases ran
  case h_7 number fates =>
    split at ran
    · rename_i call found
      cases ran
      rcases call with ⟨sender, receiver, request, issued⟩
      cases request with
      | vote req => exact ⟨sender, issued, found⟩
      | append req => exact ⟨sender, issued, found⟩
      | snapshot req => exact ⟨rfl, sender, issued, found⟩
    · cases ran
  case h_8 number fates =>
    split at ran
    · rename_i sent resp replied
      have known := List.mem_of_getElem? replied
      split at ran
      · rename_i call found
        rcases call with ⟨sender, receiver, request, issued⟩
        simp only [Option.map_eq_some_iff] at ran
        rcases ran with ⟨action, answers, rfl⟩
        simp only [Call.replied] at answers
        split at answers
        · split at answers
          · cases answers
            trivial
          · cases answers
        · rename_i req resp same
          cases answers
          cases same
          exact ⟨known, issued, found⟩
        · rename_i req resp same
          cases answers
          cases same
          exact ⟨known, receiver, _, issued, rfl, found⟩
        · cases answers
      · cases ran
    · cases ran
  case h_9 number =>
    split at ran
    · rename_i sender receiver req issued found
      split at ran
      · rename_i ready
        cases ran
        exact ⟨ready.1, req, issued, rfl, rfl, ready.2, found⟩
      · cases ran
    · cases ran
  case h_10 => cases ran

@[simp] theorem record_hosts (output : Output) :
    (w.record setting task output).hosts = w.hosts := by
  unfold record
  split <;> first | rfl | (split <;> rfl)

theorem serve_hosts : (w.serve setting task).hosts =
    Function.update w.hosts task.node (w.outcome setting task).1 := record_hosts _

theorem client_hosts {mid : Cluster} (handled : w.client setting event = some mid) :
    mid.hosts = w.hosts := by
  cases client_cases handled <;> rfl

theorem step_host (taken : w.step setting event = some next) (id : NodeId) :
    next.hosts id = w.hosts id ∨ ∃ task, w.server setting event = some task ∧ task.node = id ∧
      task.node ∈ setting.members ∧ next.hosts id = (w.outcome setting task).1 := by
  rcases step_cases taken with ⟨task, ran, member, rfl⟩ | ⟨mid, handled, rfl⟩
  · have hosts : (w.serve setting task).tick.hosts = _ := serve_hosts
    rw [hosts]
    by_cases own : task.node = id
    · subst own
      rw [Function.update_self]
      exact Or.inr ⟨task, ran, rfl, member, rfl⟩
    · rw [Function.update_of_ne (Ne.symm own)]
      exact Or.inl rfl
  · have hosts : mid.hosts = w.hosts := client_hosts handled
    exact Or.inl (congrFun hosts id)

theorem step_served (taken : w.step setting event = some next)
    (ran : w.server setting event = some task) :
    next.hosts task.node = (w.outcome setting task).1 := by
  rcases step_cases taken with ⟨other, also, -, rfl⟩ | ⟨mid, handled, rfl⟩
  · cases Option.some.inj (ran.symm.trans also)
    have hosts : (w.serve setting task).tick.hosts = _ := serve_hosts
    rw [hosts, Function.update_self]
  · unfold step at taken
    simp only [ran] at taken
    split at taken
    · have hosts := congrArg (fun next => Cluster.hosts next task.node) (Option.some.inj taken)
      have served : (w.serve setting task).tick.hosts = _ := serve_hosts
      simp only [served, Function.update_self] at hosts
      exact hosts.symm
    · cases taken

/-- Nothing that has been handed to the transport is taken back. -/
structure Grows (w next : Cluster) : Prop where
  calls : ∀ (number : Nat) call, w.calls[number]? = some call → next.calls[number]? = some call
  replies : ∀ reply ∈ w.replies, reply ∈ next.replies
  campaigns : ∀ campaign ∈ w.campaigns, campaign ∈ next.campaigns

theorem Grows.same {mid : Cluster} (calls : mid.calls = w.calls) (replies : mid.replies = w.replies)
    (campaigns : mid.campaigns = w.campaigns) : Grows w mid where
  calls := by
    rw [calls]
    exact fun _ _ found => found
  replies := by
    rw [replies]
    exact fun _ member => member
  campaigns := by
    rw [campaigns]
    exact fun _ member => member

theorem getElem?_sent {calls : List Call} {call sent : Call} {number : Nat}
    (found : calls[number]? = some call) : (calls ++ [sent])[number]? = some call := by
  rw [List.getElem?_append_left (List.getElem?_eq_some_iff.mp found).1]
  exact found

theorem send_grows (sender receiver : NodeId) (request : Request) :
    Grows w (w.send sender receiver request) :=
  ⟨fun _ _ found => getElem?_sent found, fun _ member => member, fun _ member => member⟩

theorem record_grows (output : Output) : Grows w (w.record setting task output) := by
  unfold record
  split
  case h_2 resp =>
    exact ⟨fun _ _ found => found, fun _ => List.mem_append_left _, fun _ member => member⟩
  case h_3 resp =>
    exact ⟨fun _ _ found => found, fun _ => List.mem_append_left _, fun _ member => member⟩
  case h_4 number resp =>
    exact ⟨fun _ _ found => found, fun _ => List.mem_append_left _, fun _ member => member⟩
  case h_9 req =>
    exact ⟨fun _ _ found => found, fun _ member => member, fun _ => List.mem_append_left _⟩
  case h_10 peer req => exact send_grows _ _ _
  case h_13 peer acked => split <;> exact .same rfl rfl rfl
  case h_14 acked => split <;> exact .same rfl rfl rfl
  all_goals exact .same rfl rfl rfl

theorem client_grows {mid : Cluster} (handled : w.client setting event = some mid) :
    Grows w mid := by
  cases client_cases handled with
  | solicit | chunk => exact send_grows _ _ _
  | _ => exact .same rfl rfl rfl

theorem serve_grows : Grows w (w.serve setting task) := by
  have recorded : Grows (w.settle task.node (w.outcome setting task).1) (w.serve setting task) :=
    record_grows (w.outcome setting task).2
  exact ⟨recorded.calls, recorded.replies, recorded.campaigns⟩

theorem step_grows (taken : w.step setting event = some next) : Grows w next := by
  rcases step_cases taken with ⟨task, -, -, rfl⟩ | ⟨mid, handled, rfl⟩
  · have served : Grows w (w.serve setting task) := serve_grows
    exact ⟨served.calls, served.replies, served.campaigns⟩
  · have sent : Grows w mid := client_grows handled
    exact ⟨sent.calls, sent.replies, sent.campaigns⟩

theorem record_reply {output : Output} {number : Nat} {resp : Response}
    (member : (number, resp) ∈ (w.record setting task output).replies) :
    (number, resp) ∈ w.replies ∨
      (number = task.call ∧ ((∃ vote, resp = .vote vote ∧ output = .vote vote) ∨
        ∃ append, resp = .append append ∧ output = .append append)) ∨
      ∃ snapshot, resp = .snapshot snapshot ∧ output = .snapshot number snapshot := by
  unfold record at member
  split at member
  case h_2 vote =>
    rcases List.mem_append.mp member with old | new
    · exact Or.inl old
    · cases List.mem_singleton.mp new
      exact Or.inr (Or.inl ⟨rfl, Or.inl ⟨vote, rfl, rfl⟩⟩)
  case h_3 append =>
    rcases List.mem_append.mp member with old | new
    · exact Or.inl old
    · cases List.mem_singleton.mp new
      exact Or.inr (Or.inl ⟨rfl, Or.inr ⟨append, rfl, rfl⟩⟩)
  case h_4 sent snapshot =>
    rcases List.mem_append.mp member with old | new
    · exact Or.inl old
    · cases List.mem_singleton.mp new
      exact Or.inr (Or.inr ⟨snapshot, rfl, rfl⟩)
  case h_13 peer acked => split at member <;> exact Or.inl member
  case h_14 acked => split at member <;> exact Or.inl member
  all_goals exact Or.inl member

theorem record_campaign {output : Output} {campaign : Campaign}
    (member : campaign ∈ (w.record setting task output).campaigns) :
    campaign ∈ w.campaigns ∨ (output = .campaign campaign.request ∧ campaign.node = task.node) := by
  unfold record at member
  split at member
  case h_9 req =>
    rcases List.mem_append.mp member with old | new
    · exact Or.inl old
    · rw [List.mem_singleton.mp new]
      exact Or.inr ⟨rfl, rfl⟩
  case h_13 peer acked => split at member <;> exact Or.inl member
  case h_14 acked => split at member <;> exact Or.inl member
  all_goals exact Or.inl member

theorem client_replies {mid : Cluster} (handled : w.client setting event = some mid) :
    mid.replies = w.replies ∧ mid.campaigns = w.campaigns := by
  cases client_cases handled <;> exact ⟨rfl, rfl⟩

/-- A process that decodes a snapshot does so for a request that is on record. -/
def Filed (w : Cluster) : Prop :=
  ∀ id p number req body, (w.hosts id).proc = some p → p.persistMu = .decoding number req body →
    ∃ sender issued, w.calls[number]? = some ⟨sender, id, .snapshot req, issued⟩

theorem Filed.step (filed : w.Filed) (taken : w.step setting event = some next) : next.Filed := by
  intro id q number req body alive held
  have grows := step_grows taken
  have known : ∃ sender issued, w.calls[number]? = some ⟨sender, id, .snapshot req, issued⟩ := by
    rcases step_host taken id with same | ⟨task, ran, rfl, -, stepped⟩
    · rw [same] at alive
      exact filed id q number req body alive held
    · rw [stepped] at alive
      rcases Host.step_decoding alive held with asked | ⟨p, live, earlier⟩
      · have request := server_asked ran
        simp only [Asked, asked] at request
        rcases request with ⟨rfl, sender, issued, found⟩
        exact ⟨sender, issued, found⟩
      · exact filed task.node p number req body live earlier
  rcases known with ⟨sender, issued, found⟩
  exact ⟨sender, issued, grows.calls number _ found⟩

theorem Filed.replied (filed : w.Filed) (asked : w.Asked setting task) {number : Nat}
    {resp : Response} (output : (w.outcome setting task).2.reply task.call = some (number, resp)) :
    ∃ call, w.calls[number]? = some call ∧ call.receiver = task.node := by
  have origin : (w.outcome setting task).2.From (w.hosts task.node) task.action :=
    Host.step_from task.action
  cases spoken : (w.outcome setting task).2 with
  | vote resp =>
      rw [spoken] at origin output
      rcases origin with ⟨req, action⟩
      simp only [Asked, action] at asked
      rcases asked with ⟨sender, issued, found⟩
      cases output
      exact ⟨_, found, rfl⟩
  | append resp =>
      rw [spoken] at origin output
      rcases origin with ⟨req, action⟩
      simp only [Asked, action] at asked
      rcases asked with ⟨sender, issued, found⟩
      cases output
      exact ⟨_, found, rfl⟩
  | snapshot number resp =>
      rw [spoken] at origin output
      cases output
      rcases origin with ⟨req, action⟩ | ⟨p, req, body, live, held⟩
      · simp only [Asked, action] at asked
        rcases asked with ⟨rfl, sender, issued, found⟩
        exact ⟨_, found, rfl⟩
      · rcases filed task.node p number req body live held with ⟨sender, issued, found⟩
        exact ⟨_, found, rfl⟩
  | _ =>
      rw [spoken] at output
      cases output

end Cluster

/-- What is known about everything that has been handed to the transport. -/
structure Ledger where
  call : Call → Prop
  reply : Call → Response → Prop
  campaign : Campaign → Prop
  stream : Stream → Prop

namespace Ledger

structure Holds (ledger : Ledger) (w : Cluster) : Prop where
  calls : ∀ call ∈ w.calls, ledger.call call
  replies : ∀ number resp, (number, resp) ∈ w.replies →
    ∃ call, w.calls[number]? = some call ∧ ledger.reply call resp
  campaigns : ∀ campaign ∈ w.campaigns, ledger.campaign campaign
  streams : ∀ stream ∈ w.streams, ledger.stream stream

/-- What the output of a section must bring along. -/
structure Admits (ledger : Ledger) (w : Cluster) (task : Task) (output : Output) : Prop where
  replied : ∀ number resp, output.reply task.call = some (number, resp) →
    ∃ call, w.calls[number]? = some call ∧ ledger.reply call resp
  stood : ∀ req, output = .campaign req → ledger.campaign ⟨task.node, req⟩
  appended : ∀ peer req issued, output = .dispatch peer (.append req) →
    ledger.call ⟨task.node, peer, .append req, issued⟩
  streamed : ∀ peer term snapshot chunkSize, output = .dispatch peer (.snapshot term snapshot) →
    ledger.stream ⟨task.node, peer, term, snapshot, chunkSize⟩

variable {ledger : Ledger} {setting : Setting} {w mid : Cluster} {event : Event} {task : Task}

theorem Holds.send (holds : ledger.Holds w) {sender receiver : NodeId} {request : Request}
    (known : ledger.call ⟨sender, receiver, request, w.clock⟩) :
    ledger.Holds (w.send sender receiver request) where
  calls := by
    intro call member
    rcases List.mem_append.mp member with old | new
    · exact holds.calls call old
    · rw [List.mem_singleton.mp new]
      exact known
  replies := by
    intro number resp member
    rcases holds.replies number resp member with ⟨call, found, fact⟩
    exact ⟨call, Cluster.getElem?_sent found, fact⟩
  campaigns := holds.campaigns
  streams := holds.streams

theorem Holds.reply (holds : ledger.Holds w) {number : Nat} {resp : Response} {call : Call}
    (found : w.calls[number]? = some call) (known : ledger.reply call resp) :
    ledger.Holds { w with replies := w.replies ++ [(number, resp)] } where
  calls := holds.calls
  replies := by
    intro other answer member
    rcases List.mem_append.mp member with old | new
    · exact holds.replies other answer old
    · cases List.mem_singleton.mp new
      exact ⟨call, found, known⟩
  campaigns := holds.campaigns
  streams := holds.streams

theorem Holds.frame (holds : ledger.Holds w) (calls : mid.calls = w.calls)
    (replies : mid.replies = w.replies) (campaigns : mid.campaigns = w.campaigns)
    (streams : mid.streams = w.streams) : ledger.Holds mid where
  calls := by
  -- Lists the ledger does not look at may change.
    rw [calls]
    exact holds.calls
  replies := by
    rw [calls, replies]
    exact holds.replies
  campaigns := by
    rw [campaigns]
    exact holds.campaigns
  streams := by
    rw [streams]
    exact holds.streams

theorem Holds.record (holds : ledger.Holds w) {output : Output}
    (admits : ledger.Admits w task output) : ledger.Holds (w.record setting task output) := by
  unfold Cluster.record
  split
  case h_2 resp =>
    rcases admits.replied _ _ rfl with ⟨call, found, known⟩
    exact holds.reply found known
  case h_3 resp =>
    rcases admits.replied _ _ rfl with ⟨call, found, known⟩
    exact holds.reply found known
  case h_4 number resp =>
    rcases admits.replied _ _ rfl with ⟨call, found, known⟩
    exact holds.reply found known
  case h_9 req =>
    refine ⟨holds.calls, holds.replies, ?_, holds.streams⟩
    intro campaign member
    rcases List.mem_append.mp member with old | new
    · exact holds.campaigns campaign old
    · rw [List.mem_singleton.mp new]
      exact admits.stood req rfl
  case h_10 peer req => exact holds.send (admits.appended peer req w.clock rfl)
  case h_11 peer term snapshot =>
    refine ⟨holds.calls, holds.replies, holds.campaigns, ?_⟩
    intro stream member
    rcases List.mem_append.mp member with old | new
    · exact holds.streams stream old
    · rw [List.mem_singleton.mp new]
      exact admits.streamed peer term snapshot _ rfl
  case h_13 peer acked => split <;> exact holds.frame rfl rfl rfl rfl
  case h_14 acked => split <;> exact holds.frame rfl rfl rfl rfl
  all_goals exact holds.frame rfl rfl rfl rfl

theorem Holds.serve (holds : ledger.Holds w)
    (admits : ledger.Admits w task (w.outcome setting task).2) :
    ledger.Holds (w.serve setting task) := by
  have settled : ledger.Holds (w.settle task.node (w.outcome setting task).1) :=
    holds.frame rfl rfl rfl rfl
  exact settled.record ⟨admits.replied, admits.stood, admits.appended, admits.streamed⟩

theorem Holds.client (holds : ledger.Holds w)
    (solicited : ∀ campaign peer issued, ledger.campaign campaign →
      peer ∈ (setting.config campaign.node).peerAddrs →
      ledger.call ⟨campaign.node, peer, .vote campaign.request, issued⟩)
    (chunked : ∀ stream offset issued, ledger.stream stream →
      offset ≤ (setting.codec.marshal stream.snapshot.data).length →
      ledger.call ⟨stream.node, stream.peer, .snapshot (stream.chunk setting.codec offset), issued⟩)
    (handled : w.client setting event = some mid) : ledger.Holds mid := by
  cases Cluster.client_cases handled with
  | solicit campaign peer standing known =>
      exact holds.send (solicited _ _ _ (holds.campaigns _ standing) known)
  | chunk stream offset begun bound =>
      exact holds.send (chunked _ _ _ (holds.streams _ begun) bound)
  | _ => exact holds.frame rfl rfl rfl rfl

/-- One event of the cluster, from what its section must bring along. -/
theorem Holds.step (holds : ledger.Holds w) (taken : w.step setting event = some mid)
    (admits : ∀ task, w.server setting event = some task → task.node ∈ setting.members →
      ledger.Admits w task (w.outcome setting task).2)
    (solicited : ∀ campaign peer issued, ledger.campaign campaign →
      peer ∈ (setting.config campaign.node).peerAddrs →
      ledger.call ⟨campaign.node, peer, .vote campaign.request, issued⟩)
    (chunked : ∀ stream offset issued, ledger.stream stream →
      offset ≤ (setting.codec.marshal stream.snapshot.data).length →
      ledger.call ⟨stream.node, stream.peer, .snapshot (stream.chunk setting.codec offset),
        issued⟩) :
    ledger.Holds mid := by
  rcases Cluster.step_cases taken with ⟨task, ran, member, rfl⟩ | ⟨sent, handled, rfl⟩
  · have served := holds.serve (admits task ran member)
    exact served.frame rfl rfl rfl rfl
  · have known := holds.client solicited chunked handled
    exact known.frame rfl rfl rfl rfl

end Ledger

end GoRaftKV.Raft
