import GoRaftKV.Library.Linearizability
import GoRaftKV.Raft.Authorship
import GoRaftKV.Raft.LinearizableGet
import Mathlib.Data.Finset.Prod

/-! The cluster as one store. In every run there is one order of the `Propose` and
`LinearizableGet` calls in which they answer as a single `KVStateMachine` would, and which keeps
the order of real time. -/

namespace GoRaftKV.Raft

open Storage Library Program

/-- The store that the cluster stands for: a command of `Propose`, or the key of a
`LinearizableGet`. -/
def kvObject : Object KVMap (Command ⊕ String) (ApplyResult ⊕ (String × Bool)) where
  initial := ∅
  step data
    | .inl command =>
        ((KVStateMachine.apply data command).1, .inl (KVStateMachine.apply data command).2)
    | .inr key => (data, .inr (KVStateMachine.get data key))

namespace Execution

variable {setting : Setting} {allowed : Cluster → Event → Prop}
  (execution : Execution setting allowed)

def invoked (time : Nat) : Option (Command ⊕ String) :=
  if time < execution.length then
    match execution.events time with
    | .propose _ command _ => some (.inl command)
    | .get _ key => some (.inr key)
    | _ => none
  else none

/-- The `Propose` call made at time `call` was given the channel `chan` of `id`. -/
def Opens (call : Nat) (id : NodeId) (chan : ChanId) : Prop :=
  call < execution.length ∧ (∃ command fates, execution.events call = .propose id command fates) ∧
    ((execution.states call).hosts id).chans = chan ∧
    ((execution.states (call + 1)).hosts id).chans = chan + 1

/-- The client-visible history: `Propose` calls that have returned a result of the state machine,
and `LinearizableGet` calls that have returned a value. All other calls count as unanswered. -/
def history : History (Command ⊕ String) (ApplyResult ⊕ (String × Bool)) where
  input := execution.invoked
  returned call time
    | .inl result => ∃ answer ∈ (execution.states execution.length).answers, answer.Resolved ∧
        execution.Opens call answer.node answer.chan ∧ answer.time = time ∧ answer.result = result
    | .inr value => ∃ get ∈ (execution.states execution.length).gets,
        get.invoked = call ∧ get.finished = time ∧ get.value = value

end Execution

namespace Node

variable {n : Node} {cfg : Config}

theorem advanceCommitLocked_log : (n.advanceCommitLocked cfg).All fun m => m.log = n.log := by
  unfold advanceCommitLocked
  split
  · rfl
  · simp only [persistHardStateLocked, saveHardStateLocked, perform_bind, all_call]
    exact ⟨rfl, rfl⟩

theorem proposeAppend_logs (command : Command) (chan : ChanId) :
    (n.proposeAppend cfg command chan).All fun r => ∀ index, r.2 = .ok index →
      n.proposal command ∈ r.1.log := by
  unfold proposeAppend
  split
  · rintro index ⟨⟩
  split
  · rintro index ⟨⟩
  split
  · rintro index ⟨⟩
  simp only [perform_bind, all_call, if_true]
  constructor
  · refine All.bind (advanceCommitLocked_log.mono ?_)
    intro m log index _
    change n.proposal command ∈ m.log
    rw [log]
    exact List.mem_append_right _ (List.mem_singleton_self _)
  · rintro index ⟨⟩

end Node

theorem Host.step_logged {cfg : Config} {codec : SnapshotCodec} {host : Host} {fates : List Fate}
    {command : Command} {chan : ChanId} {entry : LogEntry}
    (output : (host.step cfg codec fates (.propose command)).2 = .proposed chan (.ok entry)) :
    ∃ q, (host.step cfg codec fates (.propose command)).1.proc = some q ∧ entry ∈ q.node.log := by
  rcases Host.step_accepted output with ⟨p, live, -, rfl⟩
  have running : host.step cfg codec fates (.propose command) = p.step cfg codec host fates
      (.propose command) := by
    unfold Host.step
    rw [live]
  rw [running] at output ⊢
  simp only [Proc.step, Host.run] at output ⊢
  cases ran : (p.node.proposeAppend cfg command host.chans).exec store host.disk fates with
  | crashed disk =>
      rw [ran] at output
      cases output
  | done value disk =>
      have logs := (Node.proposeAppend_logs command host.chans).exec ran
      rw [ran] at output
      rcases value with ⟨m, err | index⟩
      · cases output
      · exact ⟨_, rfl, logs index rfl⟩

namespace Execution

variable {setting : Setting} {allowed : Cluster → Event → Prop}
  (execution : Execution setting allowed) {time : Nat}

theorem chans_mono (id : NodeId) {early late : Nat} (order : early ≤ late)
    (bound : late ≤ execution.length) :
    ((execution.states early).hosts id).chans ≤ ((execution.states late).hosts id).chans := by
  induction late, order using Nat.le_induction with
  | base => exact le_rfl
  | succ late _ ih =>
      exact (ih (Nat.le_of_succ_le bound)).trans
        (Cluster.step_hosts_chans (execution.taken late bound) id)

theorem opens_unique {first second : Nat} {id : NodeId} {chan : ChanId}
    (left : execution.Opens first id chan) (right : execution.Opens second id chan) :
    first = second := by
  have apart {early late : Nat} (one : execution.Opens early id chan)
      (other : execution.Opens late id chan) :
      ¬ early < late := by
    intro order
    have more : ((execution.states (early + 1)).hosts id).chans ≤
        ((execution.states late).hosts id).chans :=
      execution.chans_mono id order other.1.le
    rw [one.2.2.2, other.2.2.1] at more
    exact Nat.not_succ_le_self chan more
  exact le_antisymm (not_lt.mp (apart right left)) (not_lt.mp (apart left right))

theorem proposal_opened (bound : time ≤ execution.length) {proposal : Proposal}
    (member : proposal ∈ (execution.states time).proposals) : ∃ call < time,
      execution.Opens call proposal.node proposal.chan ∧
      (execution.states call).Proposes (execution.events call) proposal.entry ∧
      ∃ q, ((execution.states (call + 1)).hosts proposal.node).proc = some q ∧
        proposal.entry ∈ q.node.log := by
  induction time with
  | zero =>
      rw [execution.begun] at member
      cases member
  | succ time ih =>
      have taken := execution.taken time bound
      rcases Cluster.step_proposal taken member with old | ⟨task, ran, node, output, after⟩
      · rcases ih (Nat.le_of_succ_le bound) old with ⟨call, before, facts⟩
        exact ⟨call, before.trans (Nat.lt_succ_self time), facts⟩
      · refine ⟨time, Nat.lt_succ_self time, ?_⟩
        have origin : ((execution.states time).outcome setting task).2.From _ task.action :=
          Host.step_from task.action
        rw [output] at origin
        rcases origin with ⟨command, action⟩
        rcases Cluster.server_authors ran with
          ⟨id, made, fates, event, rfl⟩ | ⟨_, _, _, -, -, rfl⟩ | ⟨other, -⟩
        · rcases Host.step_proposed output with ⟨chan, opened, -⟩
          rcases Host.step_accepted output with ⟨p, live, able, entry⟩
          rcases Host.step_logged output with ⟨q, alive, logged⟩
          have command : proposal.entry.command = made := by rw [entry]; rfl
          rw [node, chan]
          refine ⟨⟨bound, ⟨made, fates, event⟩, rfl, ?_⟩, ⟨id, p, fates, ?_, live, able, ?_⟩, q, ?_,
            logged⟩
          · rw [after]
            exact opened
          · rw [event, command]
          · rw [command]
            exact entry
          · rw [after]
            exact alive
        · cases action
        · exact absurd action (other command)

end Execution

def Read.origin (read : Read) : NodeId × String × Nat := (read.node, read.key, read.invoked)

def Get.origin (get : Get) : NodeId × String × Nat := (get.node, get.key, get.invoked)

namespace Cluster

variable {setting : Setting} {w mid next : Cluster} {event : Event}

/-- The `LinearizableGet` calls in progress and those that have returned. -/
def origins (w : Cluster) : List (NodeId × String × Nat) :=
  w.reads.map Read.origin ++ w.gets.map Get.origin

theorem origins_set {number : Nat} {read : Read} (found : w.reads[number]? = some read)
    (stage : ReadStage) :
    ({ w with reads := w.reads.set number { read with stage := stage } } : Cluster).origins =
      w.origins := by
  have same : (w.reads.set number { read with stage := stage }).map Read.origin =
    w.reads.map Read.origin := by
    apply List.ext_getElem?
    intro position
    rw [List.getElem?_map, List.getElem?_map, List.getElem?_set]
    split
    · rename_i here
      subst here
      rw [if_pos (List.getElem?_eq_some_iff.mp found).1, found]
      rfl
    · rfl
  simp only [origins, same]

theorem origins_erase (number : Nat) :
    ({ w with reads := w.reads.eraseIdx number } : Cluster).origins.Subperm w.origins :=
  (((w.reads.eraseIdx_sublist number).map Read.origin).append_right _).subperm

theorem origins_finish {number : Nat} {read : Read} (found : w.reads[number]? = some read)
    {get : Get} (own : get.origin = read.origin) :
    ({ w with reads := w.reads.eraseIdx number, gets := w.gets ++ [get] } : Cluster).origins.Perm
      w.origins := by
  rcases List.getElem?_eq_some_iff.mp found with ⟨inside, same⟩
  have whole : (read :: w.reads.eraseIdx number).Perm w.reads :=
    same ▸ List.getElem_cons_eraseIdx_perm inside
  have moved : ({ w with reads := w.reads.eraseIdx number,
                         gets := w.gets ++ [get] } : Cluster).origins =
      (w.reads.eraseIdx number).map Read.origin ++ w.gets.map Get.origin ++ [read.origin] := by
    simp [origins, own]
  rw [moved]
  exact (List.perm_append_singleton _ _).trans ((whole.map Read.origin).append_right _)

theorem client_origins (handled : w.client setting event = some mid) :
    (∃ id key, event = .get id key ∧ mid.origins.Perm ((id, key, w.clock) :: w.origins)) ∨
      mid.origins.Subperm w.origins := by
  unfold client at handled
  split at handled
  case h_1 number peer =>
    split at handled
    · split at handled <;> cases handled
      exact Or.inr (List.Subperm.refl _)
    · cases handled
  case h_2 number offset =>
    split at handled
    · split at handled <;> cases handled
      exact Or.inr (List.Subperm.refl _)
    · cases handled
  case h_3 id chan =>
    split at handled
    · simp only [Option.map_eq_some_iff] at handled
      rcases handled with ⟨outcome, -, rfl⟩
      exact Or.inr (List.Subperm.refl _)
    · cases handled
  case h_4 id key =>
    split at handled <;> cases handled
    refine Or.inl ⟨id, key, rfl, ?_⟩
    simp only [origins, List.map_append, List.map_cons, List.map_nil, List.append_assoc,
      List.singleton_append]
    exact List.perm_middle
  case h_5 number =>
    split at handled
    · rename_i read found
      split at handled
      · rename_i p live
        split at handled
        · rename_i value moved
          cases handled
          exact Or.inr (origins_finish found rfl).subperm
        · rename_i stage _ moved
          cases handled
          rw [origins_set found]
          exact Or.inr (List.Subperm.refl _)
        · cases handled
      · cases handled
    · cases handled
  case h_6 number sent =>
    split at handled
    · rename_i read call found made
      split at handled
      · split at handled <;> cases handled
        rw [origins_set found]
        exact Or.inr (List.Subperm.refl _)
      · cases handled
    · cases handled
  case h_7 number =>
    cases handled
    exact Or.inr (origins_erase number)
  case h_8 => cases handled

theorem step_origins (taken : w.step setting event = some next) :
    (∃ id key, event = .get id key ∧ next.origins.Perm ((id, key, w.clock) :: w.origins)) ∨
      next.origins.Subperm w.origins := by
  rcases step_cases taken with ⟨task, -, -, rfl⟩ | ⟨mid, handled, rfl⟩
  · right
    have reads : (w.serve setting task).reads =
        (w.settle task.node (w.outcome setting task).1).reads :=
      (record_reads _).1
    have gets : (w.serve setting task).gets = w.gets := (record_reads _).2.1
    have fewer : (w.serve setting task).reads.Sublist w.reads := by
      rw [reads, settle]
      dsimp only
      split
      · exact List.filter_sublist
      · exact List.Sublist.refl _
    change ((w.serve setting task).reads.map Read.origin ++
      (w.serve setting task).gets.map Get.origin).Subperm _
    rw [gets]
    exact ((fewer.map Read.origin).append_right _).subperm
  · have same : mid.tick.origins = mid.origins := rfl
    rw [same]
    exact client_origins handled

end Cluster

namespace Execution

variable {setting : Setting} {allowed : Cluster → Event → Prop}
  (execution : Execution setting allowed) {time : Nat}

theorem clock (bound : time ≤ execution.length) : (execution.states time).clock = time := by
  induction time with
  | zero =>
      rw [execution.begun]
      rfl
  | succ time ih =>
      rw [Cluster.step_clock (execution.taken time bound), ih (Nat.le_of_succ_le bound)]

theorem origins (bound : time ≤ execution.length) : (execution.states time).origins.Nodup ∧
    ∀ origin ∈ (execution.states time).origins,
      origin.2.2 < time ∧ execution.events origin.2.2 = .get origin.1 origin.2.1 := by
  induction time with
  | zero =>
      rw [execution.begun]
      exact ⟨List.nodup_nil, fun origin member => absurd member List.not_mem_nil⟩
  | succ time ih =>
      rcases ih (Nat.le_of_succ_le bound) with ⟨distinct, known⟩
      have old : ∀ origin ∈ (execution.states time).origins,
          origin.2.2 < time + 1 ∧ execution.events origin.2.2 = .get origin.1 origin.2.1 :=
        fun origin member => ⟨(known origin member).1.trans (Nat.lt_succ_self time),
          (known origin member).2⟩
      have clock := execution.clock (Nat.le_of_succ_le bound)
      rcases Cluster.step_origins (execution.taken time bound) with ⟨id, key, event, perm⟩ | fewer
      · rw [clock] at perm
        have fresh : (id, key, time) ∉ (execution.states time).origins :=
          fun member => lt_irrefl time (known _ member).1
        refine ⟨perm.nodup_iff.mpr (List.nodup_cons.mpr ⟨fresh, distinct⟩), ?_⟩
        intro origin member
        rcases List.mem_cons.mp (perm.mem_iff.mp member) with rfl | earlier
        · exact ⟨Nat.lt_succ_self time, event⟩
        · exact old origin earlier
      · rcases fewer with ⟨part, perm, inside⟩
        refine ⟨perm.nodup_iff.mp (distinct.sublist inside), ?_⟩
        exact fun origin member => old origin (inside.subset (perm.mem_iff.mpr member))

theorem get_history (bound : time ≤ execution.length) {get : Get}
    (member : get ∈ (execution.states time).gets) :
    get.finished < time ∧ ∃ p, ((execution.states get.finished).hosts get.node).proc = some p ∧
      p.node.history = get.history := by
  induction time with
  | zero =>
      rw [execution.begun] at member
      cases member
  | succ time ih =>
      have before := Nat.le_of_succ_le bound
      have old (member : get ∈ (execution.states time).gets) : get.finished < time + 1 ∧
          ∃ p, ((execution.states get.finished).hosts get.node).proc = some p ∧
            p.node.history = get.history :=
        ⟨(ih before member).1.trans (Nat.lt_succ_self time), (ih before member).2⟩
      rcases Cluster.step_cases (execution.taken time bound) with
        ⟨task, -, -, same⟩ | ⟨mid, handled, same⟩
      · rw [same] at member
        have kept : ((execution.states time).serve setting task).gets = _ :=
          (Cluster.record_reads _).2.1
        exact old (kept ▸ member)
      · rw [same] at member
        cases Cluster.client_cases handled with
        | finish number read p value found live moved =>
            rcases List.mem_append.mp member with earlier | new
            · exact old earlier
            · rw [List.mem_singleton.mp new, execution.clock before]
              exact ⟨Nat.lt_succ_self time, p, live, rfl⟩
        | _ => exact old member

/-- `entries` are what some process had folded into its state machine by `time`. -/
def Folded (time : Nat) (entries : List LogEntry) : Prop :=
  ∃ earlier ≤ time, ∃ id p, ((execution.states earlier).hosts id).proc = some p ∧
    p.node.history = entries

def foldedAt (site : Nat × NodeId) : List LogEntry :=
  ((execution.states site.1).hosts site.2).proc.elim [] fun p => p.node.history

theorem Folded.mono {early late : Nat} {entries : List LogEntry}
    (folded : execution.Folded early entries) (order : early ≤ late) :
    execution.Folded late entries := by
  rcases folded with ⟨earlier, before, facts⟩
  exact ⟨earlier, before.trans order, facts⟩

theorem Folded.authored {entries : List LogEntry} (folded : execution.Folded time entries)
    (bound : time ≤ execution.length) : ∀ entry ∈ entries, execution.Authored time entry := by
  rcases folded with ⟨earlier, before, id, p, live, rfl⟩
  intro entry member
  have carries := (execution.carries (before.trans bound)).hosts id
  rcases carries.has (Or.inr (Or.inr ⟨p, live, Or.inr member⟩)) with ⟨time, order, made⟩
  exact ⟨time, order.trans_le before, made⟩

/-- `call` is the last to have `entry` written. Earlier ones have crashed over it. -/
def Authors (call : Nat) (entry : LogEntry) : Prop :=
  call < execution.length ∧ (execution.states call).Proposes (execution.events call) entry ∧
    ∀ later, call < later → later < execution.length →
      ¬ (execution.states later).Proposes (execution.events later) entry

open Classical in
theorem exists_author {call : Nat} {entry : LogEntry} (before : call < execution.length)
    (proposes : (execution.states call).Proposes (execution.events call) entry) :
    ∃ last, execution.Authors last entry := by
  let made (time : Nat) : Prop :=
    time < execution.length ∧ (execution.states time).Proposes (execution.events time) entry
  have found : made (Nat.findGreatest made execution.length) :=
    Nat.findGreatest_spec before.le ⟨before, proposes⟩
  refine ⟨Nat.findGreatest made execution.length, found.1, found.2, ?_⟩
  intro later after bound again
  exact Nat.findGreatest_is_greatest after bound.le ⟨bound, again⟩

theorem authors_unique {first second : Nat} {entry : LogEntry}
    (left : execution.Authors first entry) (right : execution.Authors second entry) :
    first = second := by
  rcases lt_trichotomy first second with before | same | after
  · exact absurd right.2.1 (left.2.2 second before right.1)
  · exact same
  · exact absurd left.2.1 (right.2.2 first after left.1)

/-- The place of a call: a write stands at its entry, a read after the entries that it has seen. -/
def place (call : Nat) : Nat :=
  ((execution.states call).makes (execution.events call)).elim
    (((execution.states execution.length).gets.find? fun get => get.invoked = call).elim 0
      fun get =>
      2 * get.history.length)
    fun entry => 2 * entry.index - 1

theorem Authors.event {call : Nat} {entry : LogEntry} (authors : execution.Authors call entry) :
    execution.invoked call = some (.inl entry.command) ∧
      (execution.states call).makes (execution.events call) = some entry := by
  rcases authors with ⟨before, ⟨author, p, fates, event, live, able, made⟩, -⟩
  constructor
  · simp only [invoked, if_pos before, event]
  · simp only [event, Cluster.makes, live, Option.bind_some, able, if_true]
    rw [← made]

theorem place_write {call : Nat} {entry : LogEntry} (authors : execution.Authors call entry) :
    execution.place call = 2 * entry.index - 1 := by
  rw [place, authors.event.2]
  rfl

theorem get_event {get : Get} (member : get ∈ (execution.states execution.length).gets) :
    get.invoked < execution.length ∧ execution.events get.invoked = .get get.node get.key :=
  (execution.origins le_rfl).2 get.origin (List.mem_append_right _ (List.mem_map_of_mem member))

theorem get_unique {first second : Get} (left : first ∈ (execution.states execution.length).gets)
    (right : second ∈ (execution.states execution.length).gets)
    (same : first.invoked = second.invoked) :
    first = second := by
  have one := (execution.get_event left).2
  have other := (execution.get_event right).2
  rw [same, other] at one
  injection one with node key
  have origin : first.origin = second.origin := by simp [Get.origin, node, key, same]
  have distinct := (List.nodup_append.mp (execution.origins le_rfl).1).2.1
  exact List.inj_on_of_nodup_map distinct left right origin

theorem place_read {get : Get} (member : get ∈ (execution.states execution.length).gets) :
    execution.place get.invoked = 2 * get.history.length := by
  have makes : (execution.states get.invoked).makes (execution.events get.invoked) = none := by
    rw [(execution.get_event member).2]
    rfl
  have present : ((execution.states execution.length).gets.find? fun other =>
      other.invoked = get.invoked).isSome := by
    rw [List.find?_isSome]
    exact ⟨get, member, decide_eq_true rfl⟩
  rcases Option.isSome_iff_exists.mp present with ⟨other, found⟩
  have here := List.find?_some found
  simp only [decide_eq_true_eq] at here
  rw [place, makes, found, execution.get_unique (List.mem_of_find?_eq_some found) member here]
  rfl

end Execution

theorem Proc.Move.applied {cfg : Config} {chans more : Nat} {p q : Proc} {output : Output}
    (move : p.Move cfg chans output more q) : q.node.applies = p.node.applies ∨
      ∃ entry, q.node.history = p.node.history ++ [entry] ∧
        q.node.applies = p.node.applies ++
          [(entry, (KVStateMachine.apply p.node.sm entry.command).2)] := by
  cases move with
  | quiet more m persistMu captured refused moves => exact Or.inl moves.rests.applies
  | propose entry m leads next moves made => exact Or.inl moves.rests.applies
  | install m snapshot call req body held free moves follows commit newer index =>
      exact Or.inl moves.rests.applies
  | applyEntry entry applying => exact Or.inr ⟨entry, rfl, rfl⟩
  | _ => exact Or.inl rfl

/-- A reliable execution next to the states of the protocol that it realizes. -/
structure Narrative (setting : Setting) extends Execution setting Cluster.Reliable where
  ideals : Nat → Ideal
  realized : ∀ time ≤ length, (states time).Realizes setting (ideals time)
  grown : ∀ time < length, Consensus.Extends (ideals time) (ideals (time + 1))

variable {setting : Setting}

theorem Execution.narrated (execution : Execution setting Cluster.Reliable) :
    ∃ narrative : Narrative setting, narrative.toExecution = execution := by
  have simulates (w next : Cluster) (a : Ideal) (realizes : w.Realizes setting a)
      (step : Cluster.Step setting Cluster.Reliable w next) :
      ∃ b, Consensus.Extends a b ∧ next.Realizes setting b := by
    rcases step with ⟨event, next, reliable, taken⟩
    exact realizes.step taken reliable
  have begins : (execution.states 0).Realizes setting Consensus.State.initial := by
    rw [execution.begun]
    exact Cluster.realizes_initial
  rcases Timeline.exists_along simulates begins fun time before =>
    .event _ _ (execution.admitted time before) (execution.taken time before) with
      ⟨ideals, -, realized, grown⟩
  exact ⟨⟨execution, ideals, realized, grown⟩, rfl⟩

namespace Narrative

variable (narrative : Narrative setting) {time call : Nat} {id : NodeId} {p : Proc}
  {entry : LogEntry}

def chronicle : Cluster.Chronicle setting where
  length := narrative.length
  states := narrative.states
  ideals := narrative.ideals
  steps :=
    fun time before => .event _ _ (narrative.admitted time before) (narrative.taken time before)
  realized := narrative.realized
  grown := narrative.grown
  begun := narrative.begun

theorem fresh (bound : time ≤ narrative.length)
    (proposes : (narrative.states time).Proposes (narrative.events time) entry)
    {log : List LogEntry}
    (grounded : Consensus.Grounded LogEntry.term (narrative.ideals time) log) : entry ∉ log := by
  rcases proposes with ⟨author, p, fates, -, live, able, made⟩
  simp only [Node.proposes, decide_eq_true_eq] at able
  have realizes := narrative.realized time bound
  have node := (realizes.proc live).node
  have leading := (node.leaderLog realizes.inv able.2.2).2
  have term : entry.term = p.node.currentTerm := by
    rw [made]
    rfl
  have index : entry.index = p.node.fullLog.length + 1 := by
    rw [made, ← node.whole.lastIndex]
    rfl
  intro member
  rcases List.getElem?_of_mem member with ⟨position, found⟩
  have part := (grounded position entry found).2
  rw [term, leading] at part
  have inside : position < log.length := (List.getElem?_eq_some_iff.mp found).1
  have place : p.node.fullLog[position]? = some entry := by
    rcases part with ⟨rest, whole⟩
    rw [← whole, List.getElem?_append_left, List.getElem?_take_of_lt (Nat.lt_succ_self position),
      found]
    rw [List.length_take]
    omega
  have numbered := node.whole.numbered position entry place
  have short := (List.getElem?_eq_some_iff.mp place).1
  omega

theorem unchosen (bound : time ≤ narrative.length)
    (proposes : (narrative.states time).Proposes (narrative.events time) entry) {limit : Nat}
    {part : List LogEntry} (chosen : Consensus.Chosen (narrative.ideals time) limit part) :
    entry ∉ part := by
  rcases chosen with rfl | ⟨term, -, initial⟩
  · exact List.not_mem_nil
  · have grounded := (narrative.realized time bound).inv.leaderLogGrounded term
    exact fun member => narrative.fresh bound proposes grounded (List.mem_of_mem_take
      (initial.subset member))

theorem unrepeated (before : call < time) (bound : time ≤ narrative.length) {q : Proc}
    (alive : ((narrative.states (call + 1)).hosts id).proc = some q) (logged : entry ∈ q.node.log) :
    ¬ (narrative.states time).Proposes (narrative.events time) entry := by
  -- A `Propose` call that is on record has made an entry that no later call makes.
  intro proposes
  have early := narrative.realized (call + 1) (Nat.le_trans before bound)
  have late := narrative.realized time bound
  have grows := narrative.chronicle.extended (show call + 1 ≤ time from before) bound
  have member : entry ∈ (narrative.ideals (call + 1)).log id := by
    rw [(early.proc alive).node.log]
    exact List.mem_append_right _ logged
  rcases List.getElem?_of_mem member with ⟨position, found⟩
  have part := (early.inv.logGrounded id position entry found).2.trans (grows.leaderLog entry.term)
  refine narrative.fresh bound proposes (late.inv.leaderLogGrounded entry.term) (part.subset ?_)
  apply List.mem_of_getElem?
  rw [List.getElem?_take_of_lt (Nat.lt_succ_self position)]
  exact found

theorem folded_chosen {entries : List LogEntry} (folded : narrative.Folded time entries)
    (bound : time ≤ narrative.length) :
    Contiguous 0 entries ∧ ∃ limit, Consensus.Chosen (narrative.ideals time) limit entries := by
  rcases folded with ⟨earlier, before, id, p, live, rfl⟩
  rcases (narrative.realized earlier (before.trans bound)).appliedLog live with
    ⟨numbered, limit, chosen⟩
  exact ⟨numbered, limit, chosen.mono (narrative.chronicle.extended before bound) le_rfl⟩

theorem applied_folded (bound : time ≤ narrative.length)
    (live : ((narrative.states time).hosts id).proc = some p) {done : LogEntry × ApplyResult}
    (member : done ∈ p.node.applies) :
    ∃ before, narrative.Folded time (before ++ [done.1]) ∧
      done.2 = (KVStateMachine.apply (KVStateMachine.replay ∅ before) done.1.command).2 := by
  induction time generalizing id p with
  | zero =>
      rw [narrative.begun] at live
      cases live
  | succ time ih =>
      have earlier := Nat.le_of_succ_le bound
      have old {id : NodeId} {p : Proc} (live : ((narrative.states time).hosts id).proc = some p)
          (member : done ∈ p.node.applies) : ∃ before,
          narrative.Folded (time + 1) (before ++ [done.1]) ∧
            done.2 = (KVStateMachine.apply (KVStateMachine.replay ∅ before) done.1.command).2 := by
        rcases ih earlier live member with ⟨before, folded, result⟩
        exact ⟨before, folded.mono _ (Nat.le_succ time), result⟩
      rcases Cluster.step_host (narrative.taken time bound) id with
        same | ⟨task, ran, rfl, -, stepped⟩
      · rw [same] at live
        exact old live member
      · have lived := live
        rw [stepped] at live
        have sound := Cluster.sound_of_run (narrative.run earlier)
        rcases sound.origin (Cluster.server_asked ran) live with
          ⟨q, running, move⟩ | ⟨loaded, -, rfl, -⟩
        · rcases move.applied with same | ⟨entry, longer, more⟩
          · rw [same] at member
            exact old running member
          · rw [more] at member
            rcases List.mem_append.mp member with earlier | new
            · exact old running earlier
            · have accounts := ((narrative.realized time earlier).proc running).accounts
              rw [List.mem_singleton.mp new]
              refine ⟨q.node.history, ⟨time + 1, le_rfl, task.node, p, lived, longer⟩, ?_⟩
              rw [accounts.folded]
        · cases member

theorem answer_recorded (bound : time ≤ narrative.length) {answer : Answer}
    (member : answer ∈ (narrative.states time).answers) (resolved : answer.Resolved) :
    answer.time < time ∧ ∃ proposal ∈ (narrative.states answer.time).proposals,
      proposal.node = answer.node ∧ proposal.chan = answer.chan ∧
      ∃ before, narrative.Folded answer.time (before ++ [proposal.entry]) ∧
        answer.result = (KVStateMachine.apply (KVStateMachine.replay ∅ before)
          proposal.entry.command).2 := by
  induction time with
  | zero =>
      rw [narrative.begun] at member
      cases member
  | succ time ih =>
      have earlier := Nat.le_of_succ_le bound
      by_cases old : answer ∈ (narrative.states time).answers
      · rcases ih earlier old with ⟨order, facts⟩
        exact ⟨order.trans (Nat.lt_succ_self time), facts⟩
      · have taken := narrative.taken time bound
        have now : answer.time = time := by
          rw [Cluster.step_answer_time taken member old, narrative.clock earlier]
        have clients := Cluster.clients_of_run (narrative.run earlier)
        rcases clients.resolved taken member old resolved with
          ⟨proposal, p, made, node, chan, -, live, applied, -⟩
        rw [now]
        exact ⟨Nat.lt_succ_self time, proposal, made, node, chan,
          narrative.applied_folded earlier live applied⟩

theorem answer_folded (bound : time ≤ narrative.length) {answer : Answer}
    (member : answer ∈ (narrative.states time).answers) (resolved : answer.Resolved) :
    answer.time < time ∧ ∃ call < answer.time, ∃ entry before,
      narrative.Opens call answer.node answer.chan ∧
      (narrative.states call).Proposes (narrative.events call) entry ∧
      (∀ later, call < later → later ≤ narrative.length →
        ¬ (narrative.states later).Proposes (narrative.events later) entry) ∧
      narrative.Folded answer.time (before ++ [entry]) ∧
      answer.result = (KVStateMachine.apply (KVStateMachine.replay ∅ before) entry.command).2 := by
  rcases narrative.answer_recorded bound member resolved with
    ⟨order, proposal, made, node, chan, before, folded, result⟩
  have earlier := order.le.trans bound
  rcases narrative.proposal_opened earlier made with
    ⟨call, prior, opens, proposes, q, alive, logged⟩
  rw [node, chan] at opens
  exact ⟨order, call, prior, proposal.entry, before, opens, proposes,
    fun later after limit => narrative.unrepeated after limit alive logged, folded, result⟩

/-- One log has in it all that any process has ever folded into its state machine. -/
theorem wholeLog :
    ∃ log, Contiguous 0 log ∧ (∀ entry ∈ log, narrative.Authored narrative.length entry) ∧ ∀ part,
      narrative.Folded narrative.length part → part <+: log := by
  have meet := fun first second => @Setting.Quorum.meet setting first second
  have source : ∀ site ∈ Finset.range (narrative.length + 1) ×ˢ setting.members,
      narrative.foldedAt site = [] ∨
        narrative.Folded narrative.length (narrative.foldedAt site) := by
    rintro ⟨time, id⟩ member
    have bound := Finset.mem_range.mp (Finset.mem_product.mp member).1
    cases live : ((narrative.states time).hosts id).proc with
    | none => simp [Execution.foldedAt, live]
    | some p =>
        have history : p.node.history = narrative.foldedAt (time, id) := by
          simp [Execution.foldedAt, live]
        exact Or.inr ⟨time, Nat.lt_succ_iff.mp bound, id, p, live, history⟩
  have chosen : ∀ site ∈ Finset.range (narrative.length + 1) ×ˢ setting.members,
      ∃ limit, Consensus.Chosen (narrative.ideals narrative.length) limit
        (narrative.foldedAt site) := by
    intro site member
    rcases source site member with empty | folded
    · exact ⟨0, Or.inl empty⟩
    · exact (narrative.folded_chosen folded le_rfl).2
  rcases (narrative.realized _ le_rfl).inv.chosenUpper meet _ chosen with ⟨log, origin, upper⟩
  have known : log = [] ∨ narrative.Folded narrative.length log := by
    rcases origin with empty | ⟨site, member, rfl⟩
    · exact Or.inl empty
    · exact source site member
  refine ⟨log, ?_, ?_, ?_⟩
  · rcases known with rfl | folded
    · exact contiguous_nil 0
    · exact (narrative.folded_chosen folded le_rfl).1
  · rcases known with rfl | folded
    · exact fun entry member => absurd member List.not_mem_nil
    · exact folded.authored _ le_rfl
  · rintro part ⟨time, bound, id, p, live, rfl⟩
    have member := Cluster.member_of_live (narrative.run bound) live
    have inside :=
      upper (time, id)
      (Finset.mem_product.mpr ⟨Finset.mem_range.mpr (Nat.lt_succ_of_le bound), member⟩)
    simpa [Execution.foldedAt, live] using inside

section Account

variable {log : List LogEntry}

/-- The calls that take effect: those that made the entries of `log`, and those that have read
it. -/
def Effective (log : List LogEntry) (call : Nat) : Prop :=
  (∃ entry ∈ log, narrative.Authors call entry) ∨
    ∃ get ∈ (narrative.states narrative.length).gets, get.invoked = call

variable (numbered : Contiguous 0 log)
  (authored : ∀ entry ∈ log, narrative.Authored narrative.length entry)
  (whole : ∀ part, narrative.Folded narrative.length part → part <+: log)

include whole in
theorem get_seen {get : Get} (member : get ∈ (narrative.states narrative.length).gets) :
    get.history <+: log ∧ get.Knows narrative.ideals ∧ get.finished < narrative.length := by
  rcases narrative.get_history le_rfl member with ⟨finished, p, live, history⟩
  have knows := ((narrative.chronicle.reads le_rfl).gets get member).2
  exact ⟨whole _ ⟨get.finished, finished.le, get.node, p, live, history⟩, knows, finished⟩

include numbered in
theorem index_bounds {entry : LogEntry} (member : entry ∈ log) :
    0 < entry.index ∧ entry.index ≤ log.length ∧ log[entry.index - 1]? = some entry := by
  rcases List.getElem?_of_mem member with ⟨position, found⟩
  have index := numbered position entry found
  have inside := (List.getElem?_eq_some_iff.mp found).1
  have same : entry.index - 1 = position := by omega
  refine ⟨by omega, by omega, ?_⟩
  rw [same]
  exact found

theorem beyond {entry : LogEntry} (numbered : Contiguous 0 log) (member : entry ∈ log)
    {part : List LogEntry} (initial : part <+: log) (absent : entry ∉ part) :
    part.length < entry.index := by
  rcases index_bounds numbered member with ⟨positive, -, found⟩
  by_contra inside
  rcases initial with ⟨rest, split⟩
  rw [← split, List.getElem?_append_left (by omega)] at found
  exact absent (List.mem_of_getElem? found)

theorem write_returned {time : Nat} {result : ApplyResult}
    (returned : narrative.history.returned call time (.inl result)) :
    call < time ∧ time < narrative.length ∧
      ∃ entry before, narrative.Authors call entry ∧ narrative.Folded time (before ++ [entry]) ∧
        result = (KVStateMachine.apply (KVStateMachine.replay ∅ before) entry.command).2 := by
  rcases returned with ⟨answer, member, resolved, opened, rfl, rfl⟩
  rcases narrative.answer_folded le_rfl member resolved with
    ⟨order, other, earlier, entry, before, opens, proposes, last, folded, result⟩
  cases narrative.opens_unique opened opens
  exact ⟨earlier, order, entry, before,
    ⟨opens.1, proposes, fun later after bound => last later after bound.le⟩, folded, result⟩

theorem part_eq (numbered : Contiguous 0 log) {entry : LogEntry} {before : List LogEntry}
    (initial : before ++ [entry] <+: log) :
    before = log.take (entry.index - 1) ∧ entry.index = before.length + 1 := by
  -- Two parts of one log that end with the same entry are the same.
  rcases initial with ⟨rest, split⟩
  have found : log[before.length]? = some entry := by
    rw [← split]
    simp
  have index := numbered before.length entry found
  have place : entry.index - 1 = before.length := by omega
  refine ⟨?_, by omega⟩
  rw [place, ← split, List.append_assoc, List.take_left]

include numbered whole in
theorem write_answers {entry : LogEntry} (member : entry ∈ log)
    (authors : narrative.Authors call entry) :
    kvObject.Answers narrative.history (KVStateMachine.replay ∅ (log.take (entry.index - 1))) call
      (KVStateMachine.replay ∅ (log.take entry.index)) := by
  rcases index_bounds numbered member with ⟨positive, -, found⟩
  have longer : log.take entry.index = log.take (entry.index - 1) ++ [entry] := by
    have next : entry.index = entry.index - 1 + 1 := by omega
    rw [next, List.take_add_one, Nat.add_sub_cancel, found]
    rfl
  refine ⟨.inl entry.command, authors.event.1, ?_, ?_⟩
  · rw [longer, KVStateMachine.replay_snoc]
    rfl
  · intro time output returned
    cases output with
    | inl result =>
        rcases narrative.write_returned returned with
          ⟨-, bound, other, before, also, folded, answer⟩
        have same := authors.event.2.symm.trans also.event.2
        cases same
        have part := whole _ (folded.mono _ bound.le)
        rw [answer, ← (part_eq numbered part).1]
        rfl
    | inr value =>
        rcases returned with ⟨get, known, rfl, -⟩
        have event := authors.event.1
        simp only [Execution.invoked, (narrative.get_event known).2] at event
        split at event <;> cases event

include whole in
theorem read_answers {get : Get} (member : get ∈ (narrative.states narrative.length).gets) :
    kvObject.Answers narrative.history (KVStateMachine.replay ∅ (log.take get.history.length))
      get.invoked (KVStateMachine.replay ∅ (log.take get.history.length)) := by
  rcases narrative.get_seen whole member with ⟨part, knows, -⟩
  rcases narrative.get_event member with ⟨bound, event⟩
  have seen : log.take get.history.length = get.history := (List.prefix_iff_eq_take.mp part).symm
  refine ⟨.inr get.key, ?_, rfl, ?_⟩
  · change narrative.invoked get.invoked = _
    simp only [Execution.invoked, if_pos bound, event]
  · intro time output returned
    cases output with
    | inl result =>
        rcases returned with ⟨answer, -, -, opens, -⟩
        rcases opens.2.1 with ⟨command, fates, proposed⟩
        rw [event] at proposed
        cases proposed
    | inr value =>
        rcases returned with ⟨other, known, same, -, rfl⟩
        rw [narrative.get_unique known member same, knows.value, seen]
        rfl

include numbered whole in
theorem returned_part {output : ApplyResult ⊕ (String × Bool)}
    (returned : narrative.history.returned call time output) :
    time < narrative.length ∧ call ≤ time ∧
      narrative.Effective log call ∧ ∃ part limit,
        Consensus.Chosen (narrative.ideals time) limit part ∧ part <+: log ∧
          narrative.place call ≤ 2 * part.length := by
  cases output with
  | inl result =>
      rcases narrative.write_returned returned with
        ⟨order, bound, entry, before, authors, folded, -⟩
      rcases (narrative.folded_chosen folded bound.le).2 with ⟨limit, chosen⟩
      have part := whole _ (folded.mono _ bound.le)
      have member : entry ∈ log :=
        part.subset (List.mem_append_right _ (List.mem_singleton_self entry))
      refine ⟨bound, order.le, Or.inl ⟨entry, member, authors⟩, before ++ [entry], limit, chosen,
        part, ?_⟩
      rw [narrative.place_write authors, (part_eq numbered part).2, List.length_append,
        List.length_singleton]
      omega
  | inr value =>
      rcases returned with ⟨get, member, rfl, rfl, -⟩
      rcases narrative.get_seen whole member with ⟨part, knows, bound⟩
      rcases knows.chosen with ⟨limit, chosen⟩
      refine ⟨bound, knows.ordered, Or.inr ⟨get, member, rfl⟩, get.history, limit, chosen, part, ?_⟩
      rw [narrative.place_read member]

include numbered whole in
theorem respects {first second : Nat} (effective : narrative.Effective log second)
    (precedes : narrative.history.Precedes first second) :
    narrative.place first ≤ narrative.place second := by
  rcases precedes with ⟨time, output, returned, before⟩
  rcases narrative.returned_part numbered whole returned with
    ⟨-, -, -, part, limit, chosen, initial, bound⟩
  have later (limit' : second ≤ narrative.length) :
      Consensus.Chosen (narrative.ideals second) limit part :=
    chosen.mono (narrative.chronicle.extended before.le limit') le_rfl
  refine bound.trans ?_
  rcases effective with ⟨entry, member, authors⟩ | ⟨get, member, rfl⟩
  · -- The entry of the later write had not been made yet.
    have absent := narrative.unchosen authors.1.le authors.2.1 (later authors.1.le)
    have after := beyond numbered member initial absent
    rw [narrative.place_write authors]
    omega
  · -- The later read has waited for all that was chosen when it was invoked.
    have seen := (narrative.get_seen whole member).2.1.covers limit part
      (later (narrative.get_event member).1.le)
    rw [narrative.place_read member]
    exact Nat.mul_le_mul_left 2 seen.length_le

include numbered whole in
theorem even_answers {k : Nat} (effective : narrative.Effective log call)
    (here : narrative.place call = 2 * k) :
    kvObject.Answers narrative.history (KVStateMachine.replay ∅ (log.take k)) call
      (KVStateMachine.replay ∅ (log.take k)) := by
  rcases effective with ⟨entry, member, authors⟩ | ⟨get, member, rfl⟩
  · have positive := (index_bounds numbered member).1
    rw [narrative.place_write authors] at here
    omega
  · rw [narrative.place_read member] at here
    have length : get.history.length = k := by omega
    rw [← length]
    exact narrative.read_answers whole member

include numbered in
theorem odd_authors {k : Nat} {entry : LogEntry} (found : log[k]? = some entry)
    (effective : narrative.Effective log call) (here : narrative.place call = 2 * k + 1) :
    narrative.Authors call entry := by
  rcases effective with ⟨other, member, authors⟩ | ⟨get, member, rfl⟩
  · rcases index_bounds numbered member with ⟨positive, -, place⟩
    rw [narrative.place_write authors] at here
    have position : other.index - 1 = k := by omega
    rw [position, found] at place
    rw [Option.some.inj place]
    exact authors
  · rw [narrative.place_read member] at here
    omega

theorem replay_noop {k : Nat} {entry : LogEntry} (found : log[k]? = some entry)
    (noop : entry.command = { op := .noop }) :
    KVStateMachine.replay ∅ (log.take (k + 1)) = KVStateMachine.replay ∅ (log.take k) := by
  rw [List.take_add_one, found, Option.toList_some, KVStateMachine.replay_snoc, noop]
  rfl

include numbered authored whole in
theorem odd_served {k : Nat} {entry : LogEntry} (found : log[k]? = some entry) :
    (KVStateMachine.replay ∅ (log.take (k + 1)) = KVStateMachine.replay ∅ (log.take k) ∧
      ∀ call, narrative.Effective log call → narrative.place call ≠ 2 * k + 1) ∨
    ∃ call, call < narrative.length ∧ narrative.Effective log call ∧
      narrative.place call = 2 * k + 1 ∧ (∀ other, narrative.Effective log other →
        narrative.place other = 2 * k + 1 → other = call) ∧
      kvObject.Answers narrative.history (KVStateMachine.replay ∅ (log.take k)) call
        (KVStateMachine.replay ∅ (log.take (k + 1))) := by
  have member := List.mem_of_getElem? found
  have index : entry.index = k + 1 := by
    rw [numbered k entry found]
    omega
  by_cases proposed : ∃ call, narrative.Authors call entry
  · rcases proposed with ⟨call, authors⟩
    refine Or.inr ⟨call, authors.1, Or.inl ⟨entry, member, authors⟩, ?_, ?_, ?_⟩
    · rw [narrative.place_write authors, index]
      omega
    · intro other effective here
      exact narrative.authors_unique (narrative.odd_authors numbered found effective here) authors
    · have answers := narrative.write_answers numbered whole member authors
      rwa [index, Nat.add_sub_cancel] at answers
  · refine Or.inl ⟨?_, fun call effective here =>
      proposed ⟨call, narrative.odd_authors numbered found effective here⟩⟩
    rcases authored entry member with ⟨earlier, before, made⟩
    rcases Cluster.makes_cases made with
      proposes | ⟨author, p, number, request, fates, -, -, -, -, noop⟩
    · exact absurd (narrative.exists_author before proposes) proposed
    · apply replay_noop found
      rw [noop]
      rfl

open Classical in
/-- The account of the calls of a run: the write of entry `k` stands at `2 k - 1`, and the reads of
the first `k` entries stand at `2 k`. -/
noncomputable def account : Account kvObject narrative.history where
  calls := (List.range narrative.length).filter (narrative.Effective log)
  place := narrative.place
  count := 2 * log.length + 1
  states := fun position => KVStateMachine.replay ∅ (log.take (position / 2))
  sorted := List.pairwise_lt_range.filter _
  bounded := by
    intro call member
    rcases of_decide_eq_true (List.mem_filter.mp member).2 with
      ⟨entry, inside, authors⟩ | ⟨get, inside, rfl⟩
    · have bounds := index_bounds numbered inside
      rw [narrative.place_write authors]
      omega
    · have seen := (narrative.get_seen whole inside).1.length_le
      rw [narrative.place_read inside]
      omega
  complete := by
    intro call time output returned
    rcases narrative.returned_part numbered whole returned with ⟨bound, order, effective, -⟩
    exact ⟨List.mem_filter.mpr ⟨List.mem_range.mpr (order.trans_lt bound),
      decide_eq_true effective⟩, order⟩
  begins := rfl
  served := by
    intro position bound
    have effective {call : Nat}
        (member : call ∈ (List.range narrative.length).filter (narrative.Effective log)) :
        narrative.Effective log call := of_decide_eq_true (List.mem_filter.mp member).2
    rcases Nat.even_or_odd' position with ⟨k, rfl | rfl⟩
    · have same : 2 * k / 2 = k := by omega
      have next : (2 * k + 1) / 2 = k := by omega
      rw [same, next]
      exact Or.inl ⟨rfl, fun call member here =>
        narrative.even_answers numbered whole (effective member) here⟩
    · have same : (2 * k + 1) / 2 = k := by omega
      have next : (2 * k + 1 + 1) / 2 = k + 1 := by omega
      have inside : k < log.length := by omega
      rw [same, next]
      rcases narrative.odd_served numbered authored whole (List.getElem?_eq_getElem inside) with
        ⟨idle, none⟩ | ⟨call, before, takes, here, alone, answers⟩
      · exact Or.inl ⟨idle, fun call member here => absurd here (none call (effective member))⟩
      · refine Or.inr ⟨call, ?_, here, fun other member there =>
          alone other (effective member) there, answers⟩
        exact List.mem_filter.mpr ⟨List.mem_range.mpr before, decide_eq_true takes⟩
  respects := by
    intro first _ second member precedes
    exact narrative.respects numbered whole (of_decide_eq_true (List.mem_filter.mp member).2)
      precedes

open Classical in
theorem account_effective (member : call ∈ (narrative.account numbered authored whole).calls) :
    narrative.Effective log call :=
  of_decide_eq_true (List.mem_filter.mp member).2

end Account

end Narrative

namespace Execution

/-- In every run with working disks, however machines crash and messages are lost, repeated or
delayed: the `Propose` and `LinearizableGet` calls of all clients are linearizable. No command that
`proposeAppend` has refused takes effect. -/
theorem linearizable (execution : Execution setting Cluster.Reliable) : ∃ order,
    kvObject.Linearizes execution.history order ∧
    ∀ call ∈ order, ∀ id command fates, execution.events call = .propose id command fates →
      ∃ p, ((execution.states call).hosts id).proc = some p ∧ p.node.proposes = true := by
  rcases execution.narrated with ⟨narrative, rfl⟩
  rcases narrative.wholeLog with ⟨log, numbered, authored, whole⟩
  refine ⟨_, (narrative.account numbered authored whole).linearizes, ?_⟩
  intro call member id command fates event
  have placed := (mem_arranged.mp member).1
  rcases narrative.account_effective numbered authored whole placed with
    ⟨entry, -, authors⟩ | ⟨get, returned, rfl⟩
  · rcases authors.2.1 with ⟨author, p, fates, proposed, live, able, -⟩
    rw [event] at proposed
    cases proposed
    exact ⟨p, live, able⟩
  · rw [(narrative.get_event returned).2] at event
    cases event

def visiting : List Event :=
  Cluster.accepting ++ Cluster.committing ++ Cluster.applying "a" ++ Cluster.applying "a" ++
    [.answer "a" 0] ++ Cluster.reading 2 ++ Cluster.reading 3

theorem visiting_plays :
    (Cluster.play trioSetting Cluster.Reliable .initial visiting).isSome = true := by
  decide +kernel

def visits : Execution trioSetting Cluster.Reliable :=
  Cluster.execution trioSetting Cluster.Reliable visiting visiting_plays

def visited (w : Cluster) : Bool :=
  (w.answers.any fun answer => answer.node = "a" ∧ answer.chan = 0 ∧ answer.error = none ∧
    answer.time = 23 ∧ answer.result = Cluster.putResult) ∧
  (w.gets.any fun get => get.invoked = 24 ∧ get.finished = 33 ∧ get.value = ("v", true)) ∧
  w.gets.any fun get => get.invoked = 34 ∧ get.finished = 43 ∧ get.value = ("v", true)

theorem visits_returned : visits.history.returned 7 23 (.inl Cluster.putResult) ∧
    visits.history.returned 24 33 (.inr ("v", true)) ∧
      visits.history.returned 34 43 (.inr ("v", true)) := by
  have checked : visited (visits.states visits.length) = true := by decide +kernel
  have opened : ((visits.states 7).hosts "a").chans = 0 ∧
      ((visits.states 8).hosts "a").chans = 1 := by decide +kernel
  simp only [visited, decide_eq_true_eq, List.any_eq_true] at checked
  rcases checked with
    ⟨⟨answer, told, node, chan, success, time, result⟩, ⟨first, one, facts⟩, second, other, more⟩
  refine ⟨?_, ⟨first, one, facts⟩, second, other, more⟩
  refine ⟨answer, told, Or.inl success,
    ⟨by decide, ⟨{ op := .put, key := "k", value := "v" }, [], ?_⟩, ?_, ?_⟩, time, result⟩
  · rw [node]
    rfl
  · rw [node, chan]
    exact opened.1
  · rw [node, chan]
    exact opened.2

theorem linearizable_visits : visits.history.returned 7 23 (.inl Cluster.putResult) ∧
    visits.history.returned 24 33 (.inr ("v", true)) ∧
      visits.history.returned 34 43 (.inr ("v", true)) ∧
    ∃ order, kvObject.Linearizes visits.history order ∧ 7 ∈ order ∧ 24 ∈ order ∧ 34 ∈ order := by
  rcases visits_returned with ⟨write, first, second⟩
  rcases linearizable visits with ⟨order, linearizes, -⟩
  exact ⟨write, first, second, order, linearizes, linearizes.complete 7 23 _ write,
    linearizes.complete 24 33 _ first, linearizes.complete 34 43 _ second⟩

end Execution

end GoRaftKV.Raft
