import GoRaftKV.Raft.Proposals

namespace GoRaftKV.Raft

open Storage Library Program

namespace Node

/-- The checks of `proposeAppend` let the command through to the WAL. -/
def proposes (n : Node) : Bool := n.stopped = false ∧ n.storageFatal = false ∧ n.role = .leader

/-- The entry that `proposeAppend` writes. -/
def proposal (n : Node) (command : Command) : LogEntry :=
  { index := n.lastIndexLocked + 1, term := n.currentTerm, command := command }

theorem proposeAppend_refused {n : Node} (cfg : Config) (command : Command) (chan : ChanId)
    (refused : n.proposes = false) :
    ∃ err, n.proposeAppend cfg command chan = pure (n, .error err) := by
  unfold proposeAppend
  split
  · exact ⟨_, rfl⟩
  split
  · exact ⟨_, rfl⟩
  split
  · exact ⟨_, rfl⟩
  · rename_i running sound leads
    simp only [Bool.not_eq_true, ne_eq, not_not] at running sound leads
    simp [proposes, running, sound, leads] at refused

theorem proposeAppend_accepts (n : Node) (cfg : Config) (command : Command) (chan : ChanId) :
    (n.proposeAppend cfg command chan).All fun r => ∀ index, r.2 = .ok index →
      n.proposes = true ∧ index = (n.proposal command).index := by
  cases lets : n.proposes with
  | false =>
      rcases proposeAppend_refused cfg command chan lets with ⟨err, same⟩
      rw [same]
      intro index accepted
      cases accepted
  | true =>
      simp only [proposes, decide_eq_true_eq] at lets
      simp only [proposeAppend, lets, Bool.false_eq_true, if_false, ne_eq, not_true_eq_false,
        perform_bind, all_call, if_true]
      constructor
      · apply All.bind
        apply advanceCommitLocked_moves.mono
        rintro m - index ⟨⟩
        exact ⟨trivial, rfl⟩
      · rintro index ⟨⟩

end Node

theorem Host.step_accepted {cfg : Config} {codec : SnapshotCodec} {host : Host} {fates : List Fate}
    {command : Command} {chan : ChanId} {entry : LogEntry}
    (output : (host.step cfg codec fates (.propose command)).2 = .proposed chan (.ok entry)) :
    ∃ p, host.proc = some p ∧ p.node.proposes = true ∧ entry = p.node.proposal command := by
  unfold Host.step at output
  split at output
  · rename_i p live
    simp only [Proc.step, Host.run] at output
    cases ran : (p.node.proposeAppend cfg command host.chans).exec store host.disk fates with
    | crashed disk =>
        rw [ran] at output
        cases output
    | done value disk =>
        have accepts := (Node.proposeAppend_accepts p.node cfg command host.chans).exec ran
        rw [ran] at output
        rcases value with ⟨m, err | index⟩
        · cases output
        · cases output
          rcases accepts index rfl with ⟨lets, rfl⟩
          exact ⟨p, live, lets, rfl⟩
  · simp only at output
    cases output

end GoRaftKV.Raft

namespace GoRaftKV.Client

open Storage Library Raft

/-- What the retry loop reads of the answer of `Service.Put`, `Delete` or `CAS`. -/
structure Reply where
  ok : Bool := false
  error : Option NodeError := none
  leaderAddress : String := ""
  deriving DecidableEq

/-- The answer of the service to what `Propose` has returned. -/
def Reply.ofProposal (result : ApplyResult) : Option NodeError → Reply
  | some (.notLeader leaderID address) =>
      { error := some (.notLeader leaderID address), leaderAddress := address }
  | some err => { error := some err }
  | none => { ok := result.ok }

inductive CallError where
  | transport
  | service (err : NodeError)
  | context
  deriving DecidableEq

/-- The variables of `withLeaderRetryUsing`. -/
structure Retry where
  endpoints : List String
  queue : List String
  queuedHints : List String := []
  attempts : Nat := 0
  lastErr : Option CallError := none

namespace Retry

/-- The loop up to its next call: the endpoint, the number of turns and the rest of the queue. -/
def nextEndpoint (limit : Nat) : Nat → List String → Option (String × Nat × List String)
  | _, [] => none
  | attempts, endpoint :: queue =>
      if attempts < limit then
        if endpoint = "" then nextEndpoint limit (attempts + 1) queue
        else some (endpoint, attempts + 1, queue)
      else none

def next (retry : Retry) : Option (String × Retry) :=
  (nextEndpoint (retry.endpoints.length + 5) retry.attempts retry.queue).map
    fun (endpoint, attempts, queue) =>
      (endpoint, { retry with attempts := attempts, queue := queue })

def failed (retry : Retry) : Retry := { retry with lastErr := some .transport }

/-- The answer carries the error of the service's context and no hint. -/
def expired (retry : Retry) : Retry := { retry with lastErr := some .context }

def refused (retry : Retry) (endpoint : String) (reply : Reply) : Retry :=
  let retry :=
    match reply.error with
    | some err => { retry with lastErr := some (.service err) }
    | none => retry
  if reply.leaderAddress ≠ "" ∧ reply.leaderAddress ≠ endpoint ∧
      reply.leaderAddress ∉ retry.queuedHints then
    { retry with
      queue := retry.queue ++ [reply.leaderAddress]
      queuedHints := reply.leaderAddress :: retry.queuedHints }
  else retry

end Retry

/-- One call of the loop. `served` records that a node has taken the request up, `proposal` the
`Propose` call it made, and `written` is a ghost: the entry it may have written to its log. -/
structure Attempt where
  endpoint : String
  served : Bool := false
  proposal : Option (NodeId × ChanId) := none
  written : Option LogEntry := none

/-- Where the loop stands: at its head, in call number `attempt`, or at its end. -/
inductive Stage where
  | choosing
  | calling (attempt : Nat)
  | returned (attempt : Nat) (reply : Reply)
  | failed (err : Option CallError)
  deriving DecidableEq

/-- A run of `kvctl put`, `delete` or `cas`. -/
structure Invocation where
  command : Command
  retry : Retry
  attempts : List Attempt := []
  stage : Stage := .choosing

def Invocation.begin (command : Command) (endpoints : List String) : Invocation where
  command := command
  retry := { endpoints := endpoints, queue := endpoints }

structure Session where
  cluster : Cluster
  invocation : Invocation

/-- The events of a cluster and of one invocation. A request is taken up by some node at most once;
a call may end in an error at any time, before or after that. -/
inductive Event where
  | cluster (event : Raft.Event)
  | choose
  | serve (attempt : Nat) (id : NodeId) (fates : List Fate)
  | expire
  | fail
  | reply

namespace Session

def writes (s : Session) (id : NodeId) : Option LogEntry :=
  match (s.cluster.hosts id).proc with
  | some proc =>
      if proc.node.proposes = true then some (proc.node.proposal s.invocation.command) else none
  | none => none

/-- A node takes up the request of an attempt and runs `proposeAppend`. -/
def serve (s : Session) (setting : Setting) (attempt : Nat) (call : Attempt) (id : NodeId)
    (fates : List Fate) : Option Session :=
  (s.cluster.step setting (.propose id s.invocation.command fates)).map fun cluster =>
    let proposal :=
      match (s.cluster.outcome setting ⟨id, .propose s.invocation.command, fates, 0⟩).2 with
      | .proposed chan _ => some (id, chan)
      | _ => none
    { cluster := cluster
      invocation := { s.invocation with
        attempts := s.invocation.attempts.set attempt
          { call with served := true, proposal := proposal, written := s.writes id } } }

/-- The answer to the call in progress, once its `Propose` has returned. -/
def answer (s : Session) (call : Attempt) : Option Reply :=
  match call.proposal with
  | some (id, chan) =>
      (s.cluster.answers.find? fun answer => answer.node = id ∧ answer.chan = chan).map
        fun answer => .ofProposal answer.result answer.error
  | none => none

def current (s : Session) : Option (Nat × Attempt) :=
  match s.invocation.stage with
  | .calling attempt => (s.invocation.attempts[attempt]?).map fun call => (attempt, call)
  | _ => none

def step (s : Session) (setting : Setting) : Event → Option Session
  | .cluster event =>
      (s.cluster.step setting event).map fun cluster => { s with cluster := cluster }
  | .choose =>
      if s.invocation.stage = .choosing then
        match s.invocation.retry.next with
        | some (endpoint, retry) =>
            some { s with invocation := { s.invocation with
              retry := retry
              attempts := s.invocation.attempts ++ [{ endpoint := endpoint }]
              stage := .calling s.invocation.attempts.length } }
        | none =>
            some { s with invocation := { s.invocation with
              stage := .failed s.invocation.retry.lastErr } }
      else none
  | .serve attempt id fates =>
      match s.invocation.attempts[attempt]? with
      | some call => if call.served = false then s.serve setting attempt call id fates else none
      | none => none
  | .expire =>
      -- `Propose` finds its context done and returns without proposing.
      match s.current with
      | some (attempt, call) =>
          if call.served = false then
            some { s with invocation := { s.invocation with
              retry := s.invocation.retry.expired
              attempts := s.invocation.attempts.set attempt { call with served := true }
              stage := .choosing } }
          else none
      | none => none
  | .fail =>
      match s.current with
      | some _ =>
          some { s with invocation := { s.invocation with
            retry := s.invocation.retry.failed, stage := .choosing } }
      | none => none
  | .reply =>
      match s.current with
      | some (attempt, call) =>
          (s.answer call).map fun reply =>
            if reply.ok = true then
              { s with invocation := { s.invocation with stage := .returned attempt reply } }
            else
              { s with invocation := { s.invocation with
                retry := s.invocation.retry.refused call.endpoint reply, stage := .choosing } }
      | none => none

/-- One event that `allowed` admits. -/
inductive Step (setting : Setting) (allowed : Session → Event → Prop) (s : Session) : Session → Prop
  | event (event : Event) (next : Session) (admitted : allowed s event)
      (taken : s.step setting event = some next) : Step setting allowed s next

abbrev Run (setting : Setting) (allowed : Session → Event → Prop) : Session → Session → Prop :=
  Relation.ReflTransGen (Step setting allowed)

def play (setting : Setting) (allowed : Session → Event → Prop)
    [∀ s event, Decidable (allowed s event)] (s : Session) (events : List Event) : Option Session :=
  events.foldlM (fun s event => if allowed s event then s.step setting event else none) s

theorem play_run {setting : Setting} {allowed : Session → Event → Prop}
    [∀ s event, Decidable (allowed s event)] {s final : Session} {events : List Event}
    (played : play setting allowed s events = some final) : Run setting allowed s final := by
  induction events generalizing s with
  | nil =>
      cases played
      exact .refl
  | cons event events ih =>
      rcases Option.bind_eq_some_iff.mp played with ⟨next, taken, rest⟩
      simp only at taken
      split at taken
      · rename_i admitted
        exact .head (.event event next admitted taken) (ih rest)
      · cases taken

theorem play_any {setting : Setting} {allowed : Session → Event → Prop}
    [∀ s event, Decidable (allowed s event)] {s : Session} {events : List Event}
    {check : Session → Bool} (played : (play setting allowed s events).any check = true) :
    ∃ final, Run setting allowed s final ∧ check final = true := by
  cases reached : play setting allowed s events with
  | none =>
      rw [reached] at played
      cases played
  | some final =>
      rw [reached] at played
      exact ⟨final, play_run reached, played⟩

/-- A call that has reached the log of a node does not end without an OK, and no request is taken up
after its call has ended. -/
def Careful (s : Session) : Event → Prop
  | .serve attempt _ _ => s.invocation.stage = .calling attempt
  | .fail => ∀ call ∈ s.current, call.2.written = none
  | .reply => ∀ call ∈ s.current, ∀ reply ∈ s.answer call.2, reply.ok = true ∨ call.2.written = none
  | _ => True

instance (s : Session) (event : Event) : Decidable (s.Careful event) := by
  unfold Careful
  split <;> infer_instance

/-- Some node has `entry` committed, and a call of the invocation wrote it. -/
def Causes (s : Session) (entry : LogEntry) : Prop :=
  (∃ call ∈ s.invocation.attempts, call.written = some entry) ∧
    ∃ id p, (s.cluster.hosts id).proc = some p ∧ entry ∈ p.node.fullLog.take p.node.commitIndex

end Session

/-- The call that may have written to a log. -/
def Stage.writer : Stage → Option Nat
  | .calling attempt => some attempt
  | .returned attempt _ => some attempt
  | _ => none

namespace Session

variable {setting : Setting} {s next : Session}

/-- No call but the one in progress, or the one that has returned, has written anything. -/
structure Single (s : Session) : Prop where
  writer : ∀ (attempt : Nat) call, s.invocation.attempts[attempt]? = some call →
    call.written ≠ none → s.invocation.stage.writer = some attempt
  served : ∀ (attempt : Nat) call, s.invocation.attempts[attempt]? = some call →
    call.written ≠ none → call.served = true

theorem current_eq {attempt : Nat} {call : Attempt} (calling : s.current = some (attempt, call)) :
    s.invocation.stage = .calling attempt ∧ s.invocation.attempts[attempt]? = some call := by
  unfold current at calling
  split at calling
  · rename_i number stage
    rcases Option.map_eq_some_iff.mp calling with ⟨found, place, same⟩
    cases same
    exact ⟨stage, place⟩
  · cases calling

theorem Single.unwritten (single : s.Single) {attempt : Nat} {call : Attempt}
    (calling : s.current = some (attempt, call)) (clean : call.written = none) (number : Nat)
    (other : Attempt) (place : s.invocation.attempts[number]? = some other) :
    other.written = none := by
  -- When the call in progress has written nothing, no call has.
  rcases current_eq calling with ⟨stage, present⟩
  by_contra wrote
  have writer := single.writer number other place wrote
  rw [stage] at writer
  cases writer
  rw [present] at place
  cases place
  exact wrote clean

theorem single_of_unwritten
    (clean : ∀ (number : Nat) other, s.invocation.attempts[number]? = some other →
      other.written = none) :
    s.Single :=
  ⟨fun number other place wrote => absurd (clean number other place) wrote,
    fun number other place wrote => absurd (clean number other place) wrote⟩

theorem Single.choose (single : s.Single) (taken : s.step setting .choose = some next) :
    next.Single := by
  simp only [Session.step] at taken
  split at taken
  · rename_i choosing
    have clean (number : Nat) (other : Attempt)
        (place : s.invocation.attempts[number]? = some other) : other.written = none := by
      by_contra wrote
      have writer := single.writer number other place wrote
      rw [choosing] at writer
      cases writer
    split at taken
    · cases taken
      apply single_of_unwritten
      intro number other place
      rcases List.mem_append.mp (List.mem_of_getElem? place) with old | new
      · rcases List.getElem?_of_mem old with ⟨earlier, found⟩
        exact clean earlier other found
      · rw [List.mem_singleton.mp new]
    · cases taken
      exact single_of_unwritten clean
  · cases taken

theorem Single.serve (single : s.Single) {attempt : Nat} {id : NodeId} {fates : List Fate}
    (stage : s.invocation.stage = .calling attempt)
    (taken : s.step setting (.serve attempt id fates) = some next) : next.Single := by
  simp only [Session.step] at taken
  split at taken
  · rename_i call present
    split at taken
    · rcases Option.map_eq_some_iff.mp taken with ⟨cluster, -, rfl⟩
      constructor
      · intro number other place wrote
        simp only [List.getElem?_set] at place
        split at place
        · rename_i same
          simp only [stage, Stage.writer, same]
        · exact single.writer number other place wrote
      · intro number other place wrote
        simp only [List.getElem?_set] at place
        split at place
        · split at place
          · cases place
            rfl
          · cases place
        · exact single.served number other place wrote
    · cases taken
  · cases taken

theorem Single.expire (single : s.Single) (taken : s.step setting .expire = some next) :
    next.Single := by
  simp only [Session.step] at taken
  split at taken
  · rename_i attempt call calling
    split at taken
    · rename_i unserved
      cases taken
      have present := (current_eq calling).2
      have clean : call.written = none := by
        by_contra wrote
        have served := single.served attempt call present wrote
        cases unserved.symm.trans served
      apply single_of_unwritten
      intro number other place
      simp only [List.getElem?_set] at place
      split at place
      · split at place
        · cases place
          exact clean
        · cases place
      · exact single.unwritten calling clean number other place
    · cases taken
  · cases taken

theorem Single.step (single : s.Single) {event : Event} (careful : s.Careful event)
    (taken : s.step setting event = some next) : next.Single := by
  cases event with
  | cluster event =>
      rcases Option.map_eq_some_iff.mp taken with ⟨cluster, -, rfl⟩
      exact ⟨single.writer, single.served⟩
  | choose => exact single.choose taken
  | serve attempt id fates => exact single.serve careful taken
  | expire => exact single.expire taken
  | fail =>
      simp only [Session.step] at taken
      split at taken
      · rename_i calling
        cases taken
        exact single_of_unwritten (single.unwritten calling (careful _ calling))
      · cases taken
  | reply =>
      simp only [Session.step] at taken
      split at taken
      · rename_i attempt call calling
        rcases Option.map_eq_some_iff.mp taken with ⟨reply, answered, rfl⟩
        have stage := (current_eq calling).1
        split
        · refine ⟨fun number other place wrote => ?_, single.served⟩
          have writer := single.writer number other place wrote
          rw [stage] at writer
          exact writer
        · rename_i refused
          have clean := (careful _ calling _ answered).resolve_left refused
          exact single_of_unwritten (single.unwritten calling clean)
      · cases taken

theorem single_of_run {start : Session} {command : Command} {endpoints : List String}
    (fresh : start.invocation = .begin command endpoints) (run : Run setting Careful start s) :
    s.Single := by
  induction run with
  | refl =>
      apply single_of_unwritten
      intro number other place
      rw [fresh] at place
      cases place
  | tail _ step ih =>
      rcases step with ⟨event, next, admitted, taken⟩
      exact ih.step admitted taken

theorem step_served {event : Event} (taken : s.step setting event = some next) {attempt : Nat}
    {call : Attempt} (place : s.invocation.attempts[attempt]? = some call)
    (served : call.served = true) : next.invocation.attempts[attempt]? = some call := by
  -- A request that has been taken up is not taken up again, so its call stays as it is.
  have unmoved {number : Nat} {other changed : Attempt}
      (site : s.invocation.attempts[number]? = some other) (unserved : other.served = false) :
      (s.invocation.attempts.set number changed)[attempt]? = some call := by
    have apart : number ≠ attempt := by
      rintro rfl
      rw [place] at site
      cases site
      cases served.symm.trans unserved
    rw [List.getElem?_set_ne apart]
    exact place
  cases event with
  | cluster event =>
      rcases Option.map_eq_some_iff.mp taken with ⟨cluster, -, rfl⟩
      exact place
  | choose =>
      simp only [Session.step] at taken
      split at taken
      · split at taken <;> cases taken
        · simp only [List.getElem?_append_left (List.getElem?_eq_some_iff.mp place).1, place]
        · exact place
      · cases taken
  | serve number id fates =>
      simp only [Session.step] at taken
      split at taken
      · rename_i other site
        split at taken
        · rename_i unserved
          rcases Option.map_eq_some_iff.mp taken with ⟨cluster, -, rfl⟩
          exact unmoved site unserved
        · cases taken
      · cases taken
  | expire =>
      simp only [Session.step] at taken
      split at taken
      · rename_i number other calling
        split at taken <;> cases taken
        rename_i unserved
        exact unmoved (current_eq calling).2 unserved
      · cases taken
  | fail =>
      simp only [Session.step] at taken
      split at taken <;> cases taken
      exact place
  | reply =>
      simp only [Session.step] at taken
      split at taken
      · rcases Option.map_eq_some_iff.mp taken with ⟨reply, -, rfl⟩
        split <;> exact place
      · cases taken

theorem Single.written_run (single : s.Single) {later : Session} (run : Run setting Careful s later)
    {attempt : Nat} {call : Attempt} (place : s.invocation.attempts[attempt]? = some call)
    (wrote : call.written ≠ none) :
    later.Single ∧ later.invocation.attempts[attempt]? = some call := by
  induction run with
  | refl => exact ⟨single, place⟩
  | tail _ step ih =>
      rcases step with ⟨event, next, admitted, taken⟩
      have served := ih.1.served attempt call ih.2 wrote
      exact ⟨ih.1.step admitted taken, step_served taken ih.2 served⟩

/-- As long as no call that has reached a log is given up or answered without an OK, an invocation
commits at most one entry: two entries that are committed at two times of the run are the same. -/
theorem at_most_one_commit {start later : Session} {command : Command} {endpoints : List String}
    (fresh : start.invocation = .begin command endpoints) (run : Run setting Careful start s)
    (further : Run setting Careful s later) {first second : LogEntry} (one : s.Causes first)
    (two : later.Causes second) : first = second := by
  rcases one with ⟨⟨call, member, wrote⟩, -⟩
  rcases two with ⟨⟨other, present, written⟩, -⟩
  rcases List.getElem?_of_mem member with ⟨attempt, place⟩
  rcases List.getElem?_of_mem present with ⟨number, site⟩
  have filled : call.written ≠ none := by
    rw [wrote]
    exact Option.some_ne_none _
  rcases (single_of_run fresh run).written_run further place filled with ⟨single, still⟩
  have writer := single.writer attempt call still filled
  have again := single.writer number other site (by rw [written]; exact Option.some_ne_none _)
  rw [writer] at again
  cases again
  rw [still] at site
  cases site
  rw [wrote] at written
  exact Option.some.inj written

def putSession : Session where
  cluster := .initial
  invocation := .begin { op := .put, key := "k", value := "v" } ["a", "b"]

def electing : List Raft.Event :=
  [.local "a" .restart [], .local "b" .restart [], .local "c" .restart [],
   .campaign "a" [], .solicit 0 "b", .deliver 0 [], .win 0 []]

/-- The entries of `a` reach `c`, and `a` commits and applies them. -/
def finishing : List Raft.Event :=
  [.replicate "a" "c", .deliver 1 [], .reply 1 []] ++ Cluster.applying "a" ++
   Cluster.applying "a" ++
    [.answer "a" 0]

def putEntry (index : Nat) : LogEntry :=
  { index := index, term := 1, command := { op := .put, key := "k", value := "v" } }

/-- The entries that the invocation has written and that `a` has committed. -/
def committedOn (s : Session) (id : NodeId) (entry : LogEntry) : Bool :=
  (s.invocation.attempts.any fun call => call.written = some entry) ∧
    s.cluster.holdsAt id fun p => (p.node.fullLog.take p.node.commitIndex).contains entry

theorem causes_of_committedOn {id : NodeId} {entry : LogEntry}
    (committed : s.committedOn id entry = true) :
    s.Causes entry := by
  simp only [committedOn, decide_eq_true_eq, List.any_eq_true] at committed
  rcases committed with ⟨⟨call, member, wrote⟩, held⟩
  rcases Cluster.holdsAt_proc held with ⟨p, live, present⟩
  exact ⟨⟨call, member, wrote⟩, id, p, live, List.contains_iff_mem.mp present⟩

theorem at_most_one_commit_put : ∃ s, Run trioSetting Careful putSession s ∧ s.Causes (putEntry 2) ∧
    ∀ later entry, Run trioSetting Careful s later → later.Causes entry → putEntry 2 = entry := by
  have played : (play trioSetting Careful putSession (electing.map Event.cluster ++
      [.choose, .serve 0 "a" []] ++ finishing.map Event.cluster ++ [.reply])).any
        (fun s => s.committedOn "a" (putEntry 2)) = true := by
    decide +kernel
  rcases play_any played with ⟨s, run, committed⟩
  have causes := causes_of_committedOn committed
  exact ⟨s, run, causes, fun later entry further other =>
    at_most_one_commit rfl run further causes other⟩

/-- `b` hears of its leader, and the first call times out although `a` has accepted the command; `b`
sends `kvctl` back to `a`. -/
def retrying : List Event :=
  [.choose, .serve 0 "a" [], .cluster (.replicate "a" "b"), .cluster (.deliver 1 []), .fail,
   .choose, .serve 1 "b" [], .reply, .choose, .serve 2 "a" []]

/-- One `kvctl put` commits its command twice. -/
theorem committed_twice : ∃ s, Run trioSetting (fun _ _ => True) putSession s ∧
    s.Causes (putEntry 2) ∧ s.Causes (putEntry 3) := by
  have played : (play trioSetting (fun _ _ => True) putSession
      (electing.map Event.cluster ++ retrying ++
        [.cluster (.replicate "a" "c"), .cluster (.deliver 2 []), .cluster (.reply 2 [])])).any
         (fun s => s.committedOn "a" (putEntry 2) && s.committedOn "a" (putEntry 3)) = true := by
    decide +kernel
  rcases play_any played with ⟨s, run, committed⟩
  rw [Bool.and_eq_true] at committed
  exact ⟨s, run, causes_of_committedOn committed.1, causes_of_committedOn committed.2⟩

end Session

end GoRaftKV.Client
