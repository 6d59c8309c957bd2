import GoRaftKV.Raft.Executions
import GoRaftKV.Raft.FileHost
import GoRaftKV.Raft.SimulatedCluster

/-! Clusters whose machines keep bytes. Every execution on the bytes, with writes that stop at any
byte, is an execution on the records. -/

namespace GoRaftKV.Raft

open Storage Library

def Event.withFates (event : Event) (fates : List Fate) : Event :=
  match event with
  | .local id action _ => .local id action fates
  | .propose id command _ => .propose id command fates
  | .campaign id _ => .campaign id fates
  | .win number _ => .win number fates
  | .deliver number _ => .deliver number fates
  | .reply number _ => .reply number fates
  | event => event

/-- What an event on the bytes is on the records: the same with calls that end likewise, or nothing
at all where a machine that is down does not come up. -/
inductive Event.Echoed (w : Cluster) (event : Event) : Event → Prop
  | same (echo : List Fate) (echoes : Echoes event.fates echo) :
      Echoed w event (event.withFates echo)
  | stalled (id : NodeId) (fates : List Fate) (start : event = .local id .restart fates)
      (down : (w.hosts id).proc = none) : Echoed w event (.local id .crash [])

theorem Event.withFates_fates (event : Event) : event.withFates event.fates = event := by
  cases event <;> rfl

namespace Cluster

variable {w : Cluster} {setting : Setting} {event : Event} {task : Task}

def bare (w : Cluster) : Cluster := { w with hosts := fun id => (w.hosts id).bare }

theorem server_bare : w.bare.server setting event = w.server setting event := by
  cases event <;> rfl

theorem client_bare : w.bare.client setting event = (w.client setting event).map bare := by
  cases event with
  | solicit number peer =>
      simp only [client]
      have campaigns : w.bare.campaigns = w.campaigns := rfl
      rw [campaigns]
      split
      · split <;> rfl
      · rfl
  | chunk number offset =>
      simp only [client]
      have streams : w.bare.streams = w.streams := rfl
      rw [streams]
      split
      · split <;> rfl
      · rfl
  | answer id chan =>
      simp only [client]
      have waiting : w.bare.waiting id chan = w.waiting id chan := rfl
      rw [waiting]
      split
      · simp only [Option.map_map]
        rfl
      · rfl
  | get id key =>
      simp only [client]
      have proc : (w.bare.hosts id).proc = (w.hosts id).proc := rfl
      rw [proc]
      split <;> rfl
  | read number =>
      simp only [client]
      have reads : w.bare.reads = w.reads := rfl
      rw [reads]
      cases w.reads[number]? with
      | none => rfl
      | some read =>
          have proc : (w.bare.hosts read.node).proc = (w.hosts read.node).proc := rfl
          have clock : w.bare.clock = w.clock := rfl
          simp only
          rw [proc, clock]
          cases (w.hosts read.node).proc with
          | none => rfl
          | some proc =>
              simp only
              cases read.advance (setting.config read.node) proc.node w.clock with
              | none => rfl
              | some stage => cases stage <;> rfl
  | ack number sent =>
      simp only [client]
      have reads : w.bare.reads = w.reads := rfl
      have calls : w.bare.calls = w.calls := rfl
      have acks : w.bare.acks = w.acks := rfl
      rw [reads, calls, acks]
      cases w.reads[number]? with
      | none => rfl
      | some read =>
          cases w.calls[sent]? with
          | none => rfl
          | some call =>
              have proc : (w.bare.hosts read.node).proc = (w.hosts read.node).proc := rfl
              simp only
              rw [proc]
              cases read.stage with
              | barrier term since acked =>
                  cases (w.hosts read.node).proc with
                  | none => rfl
                  | some proc =>
                      simp only
                      split <;> rfl
              | _ => rfl
  | _ => rfl

theorem settle_bare (id : NodeId) (host : Host) :
    w.bare.settle id host.bare = (w.settle id host).bare := by
  have hosts : Function.update w.bare.hosts id host.bare = fun other =>
      (Function.update w.hosts id host other).bare := by
    funext other
    by_cases own : other = id
    · subst own
      simp only [Function.update_self]
    · simp only [Function.update_of_ne own]
      rfl
  simp only [settle, bare] at hosts ⊢
  rw [hosts]
  rfl

theorem record_bare (output : Output) :
    w.bare.record setting task output = (w.record setting task output).bare := by
  cases output with
  | proposed chan result => cases result <;> rfl
  | cancelled index chan outcome => cases outcome <;> rfl
  | dispatch peer dispatch => cases dispatch <;> rfl
  | replicated peer acked => cases acked <;> rfl
  | chunkAcked acked => cases acked <;> rfl
  | _ => rfl

theorem record_fates (echo : List Fate) (output : Output) :
    w.record setting { task with fates := echo } output = w.record setting task output := by
  cases output <;> rfl

theorem server_withFates (ran : w.server setting event = some task) {echo : List Fate}
    (echoes : Echoes event.fates echo) :
    w.server setting (event.withFates echo) = some { task with fates := echo } := by
  have decided := server_fates ran
  cases event with
  | «local» id action fates =>
      simp only [server, Event.withFates, Option.ite_none_right_eq_some, Option.some.injEq] at ran ⊢
      rcases ran with ⟨admitted, rfl⟩
      exact ⟨admitted, rfl⟩
  | propose id command fates =>
      cases ran
      rfl
  | campaign id fates =>
      cases ran
      rfl
  | win number fates =>
      simp only [server, Event.withFates] at ran ⊢
      cases found : w.campaigns[number]? with
      | none =>
          rw [found] at ran
          cases ran
      | some campaign =>
          rw [found] at ran
          simp only [Option.ite_none_right_eq_some, Option.some.injEq] at ran ⊢
          rcases ran with ⟨elected, rfl⟩
          exact ⟨elected, rfl⟩
  | deliver number fates =>
      simp only [server, Event.withFates] at ran ⊢
      cases found : w.calls[number]? with
      | none =>
          rw [found] at ran
          cases ran
      | some call =>
          rw [found] at ran
          cases ran
          rfl
  | reply number fates =>
      simp only [server, Event.withFates] at ran ⊢
      cases found : w.replies[number]? with
      | none =>
          rw [found] at ran
          cases ran
      | some answer =>
          rcases answer with ⟨sent, resp⟩
          rw [found] at ran
          cases asked : w.calls[sent]? with
          | none =>
              simp only [asked] at ran
              cases ran
          | some call =>
              simp only [asked, Option.map_eq_some_iff] at ran ⊢
              rcases ran with ⟨action, replied, rfl⟩
              exact ⟨action, replied, rfl⟩
  | _ =>
      obtain rfl := echoes.of_nil
      rcases task with ⟨node, action, fates, number⟩
      obtain rfl : fates = [] := decided
      exact ran

theorem server_restart (ran : w.server setting event = some task)
    (restart : task.action = .restart) :
    event = .local task.node .restart task.fates := by
  have fates := server_fates ran
  cases event with
  | «local» id action fates =>
      simp only [server, Option.ite_none_right_eq_some, Option.some.injEq] at ran
      rcases ran with ⟨-, rfl⟩
      cases restart
      rfl
  | propose id command fates =>
      cases ran
      cases restart
  | campaign id fates =>
      cases ran
      cases restart
  | cancel id chan =>
      simp only [server, Option.map_eq_some_iff] at ran
      rcases ran with ⟨made, -, rfl⟩
      cases restart
  | win number fates =>
      simp only [server] at ran
      split at ran
      · simp only [Option.ite_none_right_eq_some, Option.some.injEq] at ran
        rcases ran with ⟨-, rfl⟩
        cases restart
      · cases ran
  | replicate id peer =>
      simp only [server, Option.ite_none_right_eq_some, Option.some.injEq] at ran
      rcases ran with ⟨-, rfl⟩
      cases restart
  | deliver number fates =>
      simp only [server] at ran
      split at ran
      · rename_i call found
        cases ran
        simp only at restart
        cases asked : call.request <;> rw [asked] at restart <;> cases restart
      · cases ran
  | reply number fates =>
      simp only [server] at ran
      split at ran
      · split at ran
        · rename_i sent resp _ _ call _
          simp only [Option.map_eq_some_iff] at ran
          rcases ran with ⟨action, replied, rfl⟩
          cases restart
          simp only [Call.replied] at replied
          repeat' split at replied
          all_goals cases replied
        · cases ran
      · cases ran
  | shipped number =>
      simp only [server] at ran
      split at ran
      · simp only [Option.ite_none_right_eq_some, Option.some.injEq] at ran
        rcases ran with ⟨-, rfl⟩
        cases restart
      · cases ran
  | _ => cases ran

end Cluster

/-- A cluster whose machines keep their data in files. The records of the hosts in `memory` are not
used. -/
structure FileCluster where
  memory : Cluster := {}
  dirs : NodeId → Directory := fun _ => {}

namespace FileCluster

variable {setting : Setting} {codec : FileCodec} {fw next : FileCluster} {w : Cluster}
  {event : Event}

def initial : FileCluster := {}

def outcome (fw : FileCluster) (setting : Setting) (codec : FileCodec) (task : Task) :
    Host × Directory × Output :=
  (fw.memory.hosts task.node).stepOn (setting.config task.node) setting.codec codec
  (fw.dirs task.node) task.fates
    task.action

def serve (fw : FileCluster) (setting : Setting) (codec : FileCodec) (task : Task) :
    FileCluster where
  memory := (fw.memory.settle task.node (fw.outcome setting codec task).1).record setting task
    (fw.outcome setting codec task).2.2
  dirs := Function.update fw.dirs task.node (fw.outcome setting codec task).2.1

def step (fw : FileCluster) (setting : Setting) (codec : FileCodec) (event : Event) :
    Option FileCluster :=
  match fw.memory.server setting event with
  | some task =>
      if task.node ∈ setting.members then
        some { fw.serve setting codec task with
          memory := (fw.serve setting codec task).memory.tick }
      else none
  | none => (fw.memory.client setting event).map fun memory => { fw with memory := memory.tick }

/-- The cluster on the records that the files stand for. -/
structure Mirrors (codec : FileCodec) (fw : FileCluster) (w : Cluster) : Prop where
  memory : fw.memory = w.bare
  dirs : ∀ id, Shows codec (w.hosts id).intact (fw.dirs id) (w.hosts id).disk
  fallen : ∀ id, (w.hosts id).Fallen

theorem mirrors_initial : Mirrors codec initial Cluster.initial where
  memory := rfl
  dirs _ := Shows.empty
  fallen := by
    intro id p live
    cases live

theorem Mirrors.settle (mirrors : Mirrors codec fw w) (id : NodeId) {host : Host} {left : Directory}
    (fallen : host.Fallen) (shows : Shows codec host.intact left host.disk) :
    Mirrors codec ⟨fw.memory.settle id host.bare, Function.update fw.dirs id left⟩
      (w.settle id host) where
  memory := by rw [mirrors.memory, Cluster.settle_bare]
  dirs := by
    intro other
    by_cases own : other = id
    · subst own
      simp only [Cluster.settle, Function.update_self]
      exact shows
    · simp only [Cluster.settle, Function.update_of_ne own]
      exact mirrors.dirs other
  fallen := by
    intro other
    by_cases own : other = id
    · subst own
      simp only [Cluster.settle, Function.update_self]
      exact fallen
    · simp only [Cluster.settle, Function.update_of_ne own]
      exact mirrors.fallen other

theorem Mirrors.record (mirrors : Mirrors codec fw w) (setting : Setting) (task : Task)
    (output : Output) :
    Mirrors codec ⟨fw.memory.record setting task output, fw.dirs⟩ (w.record setting task output)
      where
  memory := by rw [mirrors.memory, Cluster.record_bare]
  dirs := by
    rw [Cluster.record_hosts]
    exact mirrors.dirs
  fallen := by
    rw [Cluster.record_hosts]
    exact mirrors.fallen

theorem Mirrors.tick (mirrors : Mirrors codec fw w) :
    Mirrors codec ⟨fw.memory.tick, fw.dirs⟩ w.tick where
  memory := by
    rw [mirrors.memory]
    rfl
  dirs := mirrors.dirs
  fallen := mirrors.fallen

/-- Every event on the bytes is one on the records. -/
theorem Mirrors.step (mirrors : Mirrors codec fw w)
    (taken : fw.step setting codec event = some next) :
    ∃ echo after, event.Echoed w echo ∧ w.step setting echo = some after ∧
      Mirrors codec next after := by
  unfold FileCluster.step at taken
  rw [mirrors.memory, Cluster.server_bare, Cluster.client_bare] at taken
  cases ran : w.server setting event with
  | none =>
      simp only [ran, Option.map_map, Option.map_eq_some_iff, Function.comp_apply] at taken
      rcases taken with ⟨mid, handled, rfl⟩
      have hosts := Cluster.client_hosts handled
      refine ⟨event, mid.tick, ?_, ?_, ?_⟩
      · have same : event.Echoed w (event.withFates event.fates) :=
          .same event.fates (Echoes.refl _)
        rwa [event.withFates_fates] at same
      · simp only [Cluster.step, ran, handled, Option.map_some]
      · refine ⟨rfl, ?_, ?_⟩
        · have hosts : mid.tick.hosts = w.hosts := hosts
          rw [hosts]
          exact mirrors.dirs
        · have hosts : mid.tick.hosts = w.hosts := hosts
          rw [hosts]
          exact mirrors.fallen
  | some task =>
      simp only [ran, Option.ite_none_right_eq_some, Option.some.injEq] at taken
      rcases taken with ⟨member, rfl⟩
      rcases Host.stepOn_follows (setting.config task.node) setting.codec (mirrors.fallen task.node)
        (mirrors.dirs task.node) task.fates task.action with
        ⟨echo, action, left, echoes, followed, same, shows⟩
      have bytes : fw.outcome setting codec task =
          (((w.hosts task.node).step (setting.config task.node) setting.codec echo action).1.bare,
            left, ((w.hosts task.node).step (setting.config task.node) setting.codec echo
              action).2) := by
        rw [FileCluster.outcome, mirrors.memory]
        exact same
      have settled :=
        ((mirrors.settle task.node (Host.step_fallen action (mirrors.fallen task.node))
        shows).record setting task
        ((w.hosts task.node).step (setting.config task.node) setting.codec echo action).2).tick
      simp only [FileCluster.serve, bytes]
      rcases followed with rfl | ⟨start, rfl, rfl, down⟩
      · rw [Cluster.server_fates ran] at echoes
        refine ⟨event.withFates echo, _, .same echo echoes, ?_, settled⟩
        simp only [Cluster.step, Cluster.server_withFates ran echoes, if_pos member, Cluster.serve,
          Cluster.record_fates]
        rfl
      · have event := Cluster.server_restart ran start
        refine ⟨.local task.node .crash [], _, .stalled task.node task.fates event down, ?_,
          settled⟩
        have served : w.server setting (.local task.node .crash []) =
            some ⟨task.node, .crash, [], 0⟩ := rfl
        have silent : ((w.hosts task.node).step (setting.config task.node) setting.codec []
            .crash).2 = .nothing := by
          simp only [Host.step, down]
        simp only [Cluster.step, served, if_pos member, Cluster.serve, Cluster.outcome, silent]
        rfl

end FileCluster

structure FileExecution (setting : Setting) (codec : FileCodec)
    (allowed : Cluster → Event → Prop) where
  length : Nat
  states : Nat → FileCluster
  events : Nat → Event
  begun : states 0 = FileCluster.initial
  admitted : ∀ time < length, allowed (states time).memory (events time)
  taken : ∀ time < length, (states time).step setting codec (events time) = some (states (time + 1))

namespace FileExecution

variable {setting : Setting} {codec : FileCodec} {allowed : Cluster → Event → Prop}

/-- The execution on the records goes through the same, up to a time. -/
structure Follows (execution : FileExecution setting codec allowed)
    (records : Execution setting allowed) : Prop where
  bound : records.length ≤ execution.length
  mirrors : ∀ time ≤ records.length, (execution.states time).Mirrors codec (records.states time)
  echoed : ∀ time < records.length,
    (execution.events time).Echoed (records.states time) (records.events time)

variable {execution : FileExecution setting codec allowed} {records : Execution setting allowed}

theorem Follows.extend (follows : execution.Follows records)
    (before : records.length < execution.length) {echo : Event} {next : Cluster}
    (admitted : allowed (records.states records.length) echo)
    (taken : (records.states records.length).step setting echo = some next)
    (echoed : (execution.events records.length).Echoed (records.states records.length) echo)
    (mirrors : (execution.states (records.length + 1)).Mirrors codec next) :
    execution.Follows (records.extend echo next admitted taken) where
  bound := before
  mirrors := by
    intro time bound
    simp only [Execution.extend] at bound ⊢
    split
    · rename_i earlier
      exact follows.mirrors time earlier
    · rw [show time = records.length + 1 by omega]
      exact mirrors
  echoed := by
    intro time bound
    simp only [Execution.extend] at bound ⊢
    rw [if_pos (by omega)]
    split
    · rename_i earlier
      exact follows.echoed time earlier
    · rw [show time = records.length by omega]
      exact echoed

/-- Every execution on the bytes is followed on the records, if what `allowed` admits depends on
neither. -/
theorem exists_follows (execution : FileExecution setting codec allowed)
    (stable : ∀ w event echo, Event.Echoed w event echo → allowed w.bare event → allowed w echo) :
    ∃ records : Execution setting allowed, records.length = execution.length ∧
      execution.Follows records := by
  have upTo (length : Nat) (bound : length ≤ execution.length) :
      ∃ records : Execution setting allowed, records.length = length ∧
        execution.Follows records := by
    induction length with
    | zero =>
        refine ⟨⟨0, fun _ => .initial, fun _ => .giveUp 0, rfl, ?_, ?_⟩, rfl, Nat.zero_le _, ?_, ?_⟩
        · exact fun time before => absurd before (Nat.not_lt_zero time)
        · exact fun time before => absurd before (Nat.not_lt_zero time)
        · intro time bound
          obtain rfl : time = 0 := Nat.le_zero.mp bound
          rw [execution.begun]
          exact FileCluster.mirrors_initial
        · exact fun time before => absurd before (Nat.not_lt_zero time)
    | succ length ih =>
        rcases ih (Nat.le_of_succ_le bound) with ⟨records, rfl, follows⟩
        have current := follows.mirrors records.length le_rfl
        rcases current.step (execution.taken records.length bound) with
          ⟨echo, next, echoed, taken, mirrors⟩
        have admitted := execution.admitted records.length bound
        rw [current.memory] at admitted
        exact ⟨records.extend echo next (stable _ _ _ echoed admitted) taken, rfl,
          follows.extend bound _ taken echoed mirrors⟩
  exact upTo execution.length le_rfl

/-- Every execution on the bytes, whichever calls fail or stop their machine and at whichever byte,
is an execution on the records: at every time the memories, the messages and the answers are the
same and the bytes of every machine stand for its records. -/
theorem refines (execution : FileExecution setting codec fun _ _ => True) :
    ∃ records : Execution setting fun _ _ => True, records.length = execution.length ∧
      (∀ time ≤ execution.length, (execution.states time).Mirrors codec (records.states time)) ∧
      ∀ time < execution.length,
        (execution.events time).Echoed (records.states time) (records.events time) := by
  rcases execution.exists_follows fun _ _ _ _ admitted => admitted with ⟨records, length, follows⟩
  rw [← length]
  exact ⟨records, rfl, follows.mirrors, follows.echoed⟩

end FileExecution

end GoRaftKV.Raft
