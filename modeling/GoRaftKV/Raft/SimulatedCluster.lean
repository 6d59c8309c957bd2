import GoRaftKV.Raft.SimulatedHost

/-! The cluster as a run of the protocol: every machine is a participant, and everything handed to
the transport is on the protocol's record. -/

namespace GoRaftKV.Raft

open Storage Library Program

/-- What the protocol knows about everything handed to the transport. -/
def recorded (a : Ideal) (setting : Setting) : Ledger where
  call call :=
    match call.request with
    | .vote req => req.Follows a
    | .append req => req.Follows a
    | .snapshot req => req.Follows a setting.codec
  reply call resp :=
    match call.request, resp with
    | .vote req, .vote resp => resp.voteGranted = true → Node.Voted call.receiver req a
    | .append req, .append resp => resp.success = true → Node.Accepted call.receiver req a
    | .snapshot req, .snapshot resp =>
        resp.success = true → req.done = true → Acked a call.receiver req.term req.lastIncludedIndex
    | _, _ => True
  campaign campaign := Node.Stands campaign.node campaign.request a
  stream stream := Ships a stream.term stream.snapshot

/-- The cluster is what the protocol says. -/
structure Cluster.Realizes (w : Cluster) (setting : Setting) (a : Ideal) : Prop where
  inv : Consensus.Inv LogEntry.term setting.Quorum a
  hosts : ∀ v, (w.hosts v).Realizes a setting v
  holds : (recorded a setting).Holds w
  shipped : ∀ number ∈ w.shipped, ∃ call, w.calls[number]? = some call ∧
    ∀ req, call.request = .snapshot req → req.done = true →
      Acked a call.receiver req.term req.lastIncludedIndex
  filed : w.Filed

section Monotone

variable {a b : Ideal} {setting : Setting} {w : Cluster} (grows : Consensus.Extends a b)

include grows

theorem Node.Voted.mono {v : NodeId} {req : RequestVoteRequest} (voted : Node.Voted v req a) :
    Node.Voted v req b := by
  rcases voted with ⟨ballot, cast, facts⟩
  exact ⟨ballot, grows.ballots cast, facts⟩

theorem Ships.mono {term : Nat} {snapshot : Snapshot} (ships : Ships a term snapshot) :
    Ships b term snapshot :=
  ⟨grows.electionSome ships.led, ships.agreed.mono grows, ships.chosen.mono grows le_rfl,
    ships.positive⟩

theorem recorded_mono (holds : (recorded a setting).Holds w) : (recorded b setting).Holds w where
  calls := by
    intro call member
    have known := holds.calls call member
    simp only [recorded] at known ⊢
    split at known
    · exact known.mono grows
    · exact known.mono grows
    · exact known.mono grows
  replies := by
    intro number resp member
    rcases holds.replies number resp member with ⟨call, found, known⟩
    refine ⟨call, found, ?_⟩
    simp only [recorded] at known ⊢
    split at known
    · exact fun granted => (known granted).mono grows
    · exact fun success => (known success).mono grows
    · exact fun success done => (known success done).mono grows
    · trivial
  campaigns := by
    intro campaign member
    rcases holds.campaigns campaign member with ⟨own, follows, voted⟩
    exact ⟨own, follows.mono grows, voted.mono grows⟩
  streams := fun stream member => (holds.streams stream member).mono grows

end Monotone

theorem Ships.chunk {a : Ideal} {codec : SnapshotCodec} {stream : Stream}
    (ships : Ships a stream.term stream.snapshot) {offset : Nat}
    (bound : offset ≤ (codec.marshal stream.snapshot.data).length) :
    (stream.chunk codec offset).Follows a codec := by
  have length := ships.agreed.length
  have positive := ships.positive
  have nonempty : stream.snapshot.history ≠ [] := by
    intro empty
    rw [empty, List.length_nil] at length
    omega
  have body : codec.marshal stream.snapshot.data = bodyOf codec stream.snapshot.history := by
    rw [ships.agreed.folded]
    simp only [foldOf, if_neg nonempty, bodyOf]
  have inside : offset ≤ min (offset + stream.chunkSize)
      (codec.marshal stream.snapshot.data).length := by omega
  refine ⟨ships.led, nonempty, ships.agreed.ordered, ships.chosen, length.symm, ?_, ?_, ?_, ?_⟩
  · have term : stream.snapshot.lastIncludedTerm = endTerm stream.snapshot.history := by
      rw [ships.agreed.folded]
      rfl
    exact term
  · exact body ▸ bound
  · have front : (bodyOf codec stream.snapshot.history).take offset =
        ((codec.marshal stream.snapshot.data).take
          (min (offset + stream.chunkSize) (codec.marshal stream.snapshot.data).length)).take
            offset := by
      rw [List.take_take, min_eq_left inside, body]
    have whole : (bodyOf codec stream.snapshot.history).take offset ++
        (stream.chunk codec offset).data = (codec.marshal stream.snapshot.data).take
          (min (offset + stream.chunkSize) (codec.marshal stream.snapshot.data).length) := by
      rw [front]
      exact List.take_append_drop _ _
    rw [show (stream.chunk codec offset).history = stream.snapshot.history from rfl,
      show (stream.chunk codec offset).offset = offset from rfl, whole, body]
    exact List.take_prefix _ _
  · intro done
    have last : min (offset + stream.chunkSize) (codec.marshal stream.snapshot.data).length =
        (codec.marshal stream.snapshot.data).length := of_decide_eq_true done
    have size : (stream.chunk codec offset).data.length =
        (codec.marshal stream.snapshot.data).length - offset := by
      simp only [Stream.chunk, List.length_drop, List.length_take, last, min_self]
    rw [size, show (stream.chunk codec offset).offset = offset from rfl, Nat.add_sub_cancel' bound,
      body]
    rfl

namespace Cluster

variable {setting : Setting} {w next : Cluster} {event : Event} {task : Task} {a b : Ideal}

theorem Realizes.follows (realizes : w.Realizes setting a) (member : task.node ∈ setting.members)
    (asked : w.Asked setting task)
    (unwrapped : ∀ p, (w.hosts task.node).proc = some p → task.action = .startElection →
      p.node.currentTerm + 1 < uint64Size) :
    task.action.Follows (w.hosts task.node) a setting task.node := by
  rcases task with ⟨v, action, fates, number⟩
  have known {call : Call} (found : w.calls[number]? = some call) :
      (recorded a setting).call call :=
    realizes.holds.calls call (List.mem_of_getElem? found)
  cases action with
  | requestVote req =>
      rcases asked with ⟨sender, issued, found⟩
      exact known found
  | appendEntries req =>
      rcases asked with ⟨sender, issued, found⟩
      exact known found
  | installSnapshot call req =>
      rcases asked with ⟨-, sender, issued, found⟩
      exact known found
  | startElection => exact fun p live => unwrapped p live rfl
  | becomeLeader term =>
      rcases asked with ⟨campaign, standing, rfl, rfl, enough⟩
      rcases realizes.holds.campaigns campaign standing with ⟨own, -, voted⟩
      refine ⟨insert campaign.node (w.granted setting campaign),
        Setting.quorum_counted member (granted_subset campaign) enough, ?_⟩
      have elected {u : NodeId} (cast : Node.Voted u campaign.request a) :
          ∃ ballot ∈ a.ballots, ballot.voter = u ∧ ballot.term = campaign.request.term ∧
            ballot.candidate = campaign.node := by
        rw [← own]
        exact cast
      intro u voter
      rcases Finset.mem_insert.mp voter with rfl | granted
      · exact elected voted
      · rcases mem_granted granted with ⟨number, resp, issued, replied, yes, found⟩
        rcases realizes.holds.replies _ _ replied with ⟨call, sent, known⟩
        rw [found] at sent
        cases sent
        exact elected (known yes)
  | replicateReply peer req resp =>
      rcases asked with ⟨replied, issued, found⟩
      rcases realizes.holds.replies _ _ replied with ⟨call, sent, known⟩
      simp only at found sent
      rw [found] at sent
      cases sent
      exact known
  | snapshotSent peer term snapIdx =>
      rcases asked with ⟨shipped, req, issued, rfl, rfl, done, found⟩
      rcases realizes.shipped _ shipped with ⟨call, sent, known⟩
      simp only at found sent
      rw [found] at sent
      cases sent
      exact known req rfl done
  | _ => trivial

theorem Realizes.admits (realizes : w.Realizes setting a) (asked : w.Asked setting task)
    {output : Output} (warranted : output.Warranted (w.hosts task.node) task.action task.node b) :
    (recorded b setting).Admits w task output where
  replied := by
    intro number resp replied
    cases output with
    | vote vote =>
        rcases warranted with ⟨req, action, cast⟩
        cases replied
        simp only [Asked, action] at asked
        rcases asked with ⟨sender, issued, found⟩
        exact ⟨_, found, cast⟩
    | append append =>
        rcases warranted with ⟨req, action, accepted⟩
        cases replied
        simp only [Asked, action] at asked
        rcases asked with ⟨sender, issued, found⟩
        exact ⟨_, found, accepted⟩
    | snapshot number snapshot =>
        rcases warranted with ⟨req, action | ⟨-, p, body, live, held⟩, acked⟩
        · cases replied
          simp only [Asked, action] at asked
          rcases asked with ⟨rfl, sender, issued, found⟩
          exact ⟨_, found, acked⟩
        · cases replied
          rcases realizes.filed _ p number req body live held with ⟨sender, issued, found⟩
          exact ⟨_, found, acked⟩
    | _ => cases replied
  stood := by
    rintro req rfl
    exact warranted
  appended := by
    rintro peer req issued rfl
    exact warranted
  streamed := by
    rintro peer term snapshot chunkSize rfl
    exact warranted

theorem record_shipped {output : Output} {number : Nat}
    (member : number ∈ (w.record setting task output).shipped) :
    number ∈ w.shipped ∨ (number = task.call ∧ output = .chunkAcked true) := by
  unfold record at member
  split at member
  case h_13 peer acked => split at member <;> exact Or.inl member
  case h_14 acked =>
    split at member
    · rename_i yes
      rcases List.mem_append.mp member with old | new
      · exact Or.inl old
      · rw [yes]
        exact Or.inr ⟨List.mem_singleton.mp new, rfl⟩
    · exact Or.inl member
  all_goals exact Or.inl member

theorem client_shipped {mid : Cluster} (handled : w.client setting event = some mid) :
    mid.shipped = w.shipped := by
  cases client_cases handled <;> rfl

theorem server_fates (ran : w.server setting event = some task) : task.fates = event.fates := by
  unfold server at ran
  repeat' split at ran
  all_goals first | cases ran | skip
  all_goals first | rfl | skip
  all_goals
    simp only [Option.map_eq_some_iff] at ran
    rcases ran with ⟨made, -, rfl⟩
    rfl

theorem Realizes.client {mid : Cluster} (realizes : w.Realizes setting a)
    (taken : w.step setting event = some mid.tick) (handled : w.client setting event = some mid) :
    mid.tick.Realizes setting a where
  inv := realizes.inv
  hosts := by
    intro v
    have same := client_hosts handled
    have kept : mid.tick.hosts = w.hosts := same
    rw [kept]
    exact realizes.hosts v
  holds := by
    have known : (recorded a setting).Holds mid :=
      realizes.holds.client (fun campaign peer issued known _ => known.2.1)
        (fun stream offset issued known bound => Ships.chunk known bound) handled
    exact known.frame rfl rfl rfl rfl
  shipped := by
    intro number member
    have before : number ∈ mid.shipped := member
    rw [client_shipped handled] at before
    rcases realizes.shipped number before with ⟨call, found, known⟩
    exact ⟨call, (step_grows taken).calls number call found, known⟩
  filed := realizes.filed.step taken

theorem Realizes.serve (realizes : w.Realizes setting a)
    (taken : w.step setting event = some (w.serve setting task).tick) (asked : w.Asked setting task)
    (reach : Reaches setting task.node a b)
    (now : (w.outcome setting task).1.Realizes b setting task.node)
    (warranted : (w.outcome setting task).2.Warranted (w.hosts task.node) task.action task.node b) :
    (w.serve setting task).tick.Realizes setting b where
  inv := reach.inv
  hosts := by
    intro v
    have hosts : (w.serve setting task).tick.hosts = _ := serve_hosts
    rw [hosts]
    by_cases own : v = task.node
    · rw [own, Function.update_self]
      exact now
    · rw [Function.update_of_ne own]
      exact (realizes.hosts v).other reach.acts own
  holds := by
    have known := (recorded_mono reach.acts.grows realizes.holds).serve
      (realizes.admits asked warranted)
    exact known.frame rfl rfl rfl rfl
  shipped := by
    have grows := step_grows taken
    intro number member
    have recorded : number ∈ (w.serve setting task).shipped := member
    rcases record_shipped recorded with before | ⟨rfl, output⟩
    · rcases realizes.shipped number before with ⟨call, found, known⟩
      exact ⟨call, grows.calls number call found, fun req same done =>
        (known req same done).mono reach.acts.grows⟩
    · rw [output] at warranted
      rcases warranted with ⟨term, resp, action, success⟩
      simp only [Asked, action] at asked
      rcases asked with ⟨replied, receiver, req, issued, rfl, found⟩
      rcases realizes.holds.replies _ _ replied with ⟨call, sent, known⟩
      rw [found] at sent
      cases sent
      refine ⟨_, grows.calls _ _ found, ?_⟩
      rintro other ⟨⟩ done
      exact (known (success rfl) done).mono reach.acts.grows
  filed := realizes.filed.step taken

/-- Every event of the cluster is matched by moves of one node in the protocol. -/
theorem Realizes.moves (realizes : w.Realizes setting a) (taken : w.step setting event = some next)
    (reliable : w.Reliable event) : ∃ v b, Reaches setting v a b ∧ next.Realizes setting b := by
  rcases step_cases taken with ⟨task, ran, member, rfl⟩ | ⟨mid, handled, rfl⟩
  · have asked := server_asked ran
    have errorless : Errorless task.fates := by
      rw [server_fates ran]
      exact reliable.1
    have follows := realizes.follows member asked (unwrapped_of_server ran reliable.2)
    rcases Host.step_simulated (realizes.hosts task.node) realizes.inv member follows errorless with
      ⟨b, reach, now, warranted⟩
    exact ⟨task.node, b, reach, realizes.serve taken asked reach now warranted⟩
  · exact ⟨"", a, .refl realizes.inv, realizes.client taken handled⟩

/-- After every event the cluster realizes a state of the protocol that has grown from the one
before. -/
theorem Realizes.step (realizes : w.Realizes setting a) (taken : w.step setting event = some next)
    (reliable : w.Reliable event) : ∃ b, Consensus.Extends a b ∧ next.Realizes setting b := by
  rcases realizes.moves taken reliable with ⟨v, b, reach, now⟩
  exact ⟨b, reach.acts.grows, now⟩

theorem realizes_initial : initial.Realizes setting Consensus.State.initial where
  inv := Consensus.inv_initial
  hosts := by
    intro v
    have agreed : Agreed Consensus.State.initial ({} : Snapshot) := ⟨rfl, by simp, 0, Or.inl rfl⟩
    refine ⟨agreed, {}, rfl, ⟨⟨?_, le_rfl, le_rfl, le_rfl⟩, agreed, rfl, rfl, rfl, rfl, Or.inl rfl,
      nofun, nofun⟩, Or.inl ?_⟩
    · exact contiguous_nil _
    · exact ⟨{}, 0, false, Or.inl rfl, le_rfl, rfl⟩
  holds := ⟨by simp [initial], by simp [initial], by simp [initial], by simp [initial]⟩
  shipped := by simp [initial]
  filed := by
    intro id p number req body live
    cases live

/-- A reachable cluster realizes a state with the protocol's invariant, and a later one a state
grown from it. -/
theorem Realizes.run (realizes : w.Realizes setting a) (run : Run setting Reliable w next) :
    ∃ b, Consensus.Extends a b ∧ next.Realizes setting b := by
  induction run with
  | refl => exact ⟨a, .refl a, realizes⟩
  | tail _ step ih =>
      rcases step with ⟨event, next, reliable, taken⟩
      rcases ih with ⟨b, grows, now⟩
      rcases now.step taken reliable with ⟨c, further, later⟩
      exact ⟨c, grows.trans further, later⟩

theorem realizes_of_run (run : Run setting Reliable initial w) : ∃ a, w.Realizes setting a := by
  rcases realizes_initial.run run with ⟨a, -, realizes⟩
  exact ⟨a, realizes⟩

end Cluster

end GoRaftKV.Raft
