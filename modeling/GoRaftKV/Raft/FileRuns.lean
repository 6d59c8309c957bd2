import GoRaftKV.Raft.FileCluster
import GoRaftKV.Raft.ProtocolRuns
import GoRaftKV.Storage.JsonCodec

/-! What clients see of a cluster on bytes, and what its machines have in their files for them. -/

namespace GoRaftKV.Raft

open Storage Library

theorem Event.Echoed.reliable {w : Cluster} {event echo : Event} (echoed : event.Echoed w echo)
    (reliable : w.bare.Reliable event) : w.Reliable echo := by
  rcases reliable with ⟨errorless, unwrapped⟩
  cases echoed with
  | same fates echoes =>
      have calm := echoes.errorless errorless
      cases event with
      | «local» | propose | campaign | win | deliver | reply => exact ⟨calm, unwrapped⟩
      | _ => exact ⟨errorless, unwrapped⟩
  | stalled id fates start down => exact ⟨show Program.Errorless [] by decide, trivial⟩

namespace FileExecution

variable {setting : Setting} {codec : FileCodec} {allowed : Cluster → Event → Prop}

section History

variable (execution : FileExecution setting codec allowed)

def invoked (time : Nat) : Option (Command ⊕ String) :=
  if time < execution.length then
    match execution.events time with
    | .propose _ command _ => some (.inl command)
    | .get _ key => some (.inr key)
    | _ => none
  else none

def Opens (call : Nat) (id : NodeId) (chan : ChanId) : Prop :=
  call < execution.length ∧ (∃ command fates, execution.events call = .propose id command fates) ∧
    ((execution.states call).memory.hosts id).chans = chan ∧
    ((execution.states (call + 1)).memory.hosts id).chans = chan + 1

def history : History (Command ⊕ String) (ApplyResult ⊕ (String × Bool)) where
  input := execution.invoked
  returned call time
    | .inl result =>
        ∃ answer ∈ (execution.states execution.length).memory.answers, answer.Resolved ∧
          execution.Opens call answer.node answer.chan ∧ answer.time = time ∧ answer.result = result
    | .inr value => ∃ get ∈ (execution.states execution.length).memory.gets,
        get.invoked = call ∧ get.finished = time ∧ get.value = value

end History

variable {execution : FileExecution setting codec allowed} {records : Execution setting allowed}

theorem Follows.invoked (follows : execution.Follows records)
    (length : records.length = execution.length) (time : Nat) :
    execution.invoked time = records.invoked time := by
  unfold FileExecution.invoked Execution.invoked
  rw [length]
  split
  · rename_i before
    have echoed := follows.echoed time (length ▸ before)
    generalize records.events time = echo at echoed ⊢
    cases echoed with
    | same fates echoes => cases execution.events time <;> rfl
    | stalled id fates start down => rw [start]
  · rfl

theorem Follows.opens (follows : execution.Follows records)
    (length : records.length = execution.length) {call : Nat} {id : NodeId} {chan : ChanId} :
    execution.Opens call id chan ↔ records.Opens call id chan := by
  unfold FileExecution.Opens Execution.Opens
  rw [length]
  apply and_congr_right
  intro before
  rw [← length] at before
  have first := (follows.mirrors call before.le).memory
  have second := (follows.mirrors (call + 1) before).memory
  have proposed : (∃ command fates, execution.events call = .propose id command fates) ↔
      ∃ command fates, records.events call = .propose id command fates := by
    have echoed := follows.echoed call before
    generalize execution.events call = event at echoed ⊢
    generalize records.events call = echo at echoed ⊢
    cases echoed with
    | same fates echoes =>
        cases event with
        | propose other command _ =>
            simp only [Event.withFates, Event.propose.injEq, exists_and_left, exists_and_right,
              exists_eq']
        | _ => simp [Event.withFates]
    | stalled other fates start down => simp [start]
  rw [proposed, first, second]
  rfl

theorem Follows.history (follows : execution.Follows records)
    (length : records.length = execution.length) :
    execution.history = records.history := by
  have last := (follows.mirrors records.length le_rfl).memory
  rw [length] at last
  have input : execution.invoked = records.invoked := funext (follows.invoked length)
  have returned : execution.history.returned = records.history.returned := by
    funext call time output
    cases output with
    | inl result =>
        simp only [FileExecution.history, Execution.history, follows.opens length, last, length];
        rfl
    | inr value => simp only [FileExecution.history, Execution.history, last, length]; rfl
  unfold FileExecution.history Execution.history at returned ⊢
  simp only [History.mk.injEq] at returned ⊢
  exact ⟨input, returned⟩

/-- With files that are written byte by byte and machines that may crash at any byte, the calls are
linearizable. -/
theorem linearizable_on_files (execution : FileExecution setting codec Cluster.Reliable) :
    ∃ order, kvObject.Linearizes execution.history order := by
  rcases execution.exists_follows fun _ _ _ echoed => echoed.reliable with
    ⟨records, length, follows⟩
  rw [follows.history length]
  rcases records.narrated with ⟨narrative, rfl⟩
  rcases narrative.wholeLog with ⟨log, numbered, authored, whole⟩
  exact ⟨_, (narrative.account numbered authored whole).linearizes⟩

end FileExecution

/-- The snapshot file covers `entry` or a complete line of the WAL decodes to it, and so has
whatever `Load` returns. -/
structure Written (codec : FileCodec) (dir : Directory) (index : Nat) (entry : LogEntry) :
    Prop where
  files : (∃ snap, readJSONFile codec.readSnapshot {} dir.files.snapshot = some snap ∧
      Snapshot.Includes (snap.withHistory dir.history) index entry) ∨
    entry.index = index ∧ Stands codec.toLineCodec dir.files.walLines (.entry entry)
  loads : ∀ hs entries snap after, dir.files.Loads codec.toLineCodec hs entries snap after →
    Snapshot.Includes (snap.withHistory dir.history) index entry ∨ entry.index = index ∧
      entry ∈ entries

theorem Disk.HasEntry.written {codec : FileCodec} {intact : Bool} {dir : Directory} {disk : Disk}
    (shows : Shows codec intact dir disk) {index : Nat} {entry : LogEntry}
    (has : Disk.HasEntry disk index entry) :
    Written codec dir index entry := by
  have ghost : ((disk.snapshot.getD {}).withHistory []).withHistory dir.history =
      disk.snapshot.getD {} := by
    rw [shows.ghost]
    rfl
  constructor
  · rcases has.files with covered | ⟨numbered, member⟩
    · refine Or.inl ⟨_, shows.view.snapshot, ?_⟩
      rw [disk.plain_snapshot, ghost]
      exact covered
    · rcases List.mem_filterMap.mp member with ⟨stored, recorded, same⟩
      obtain rfl : stored = .entry entry := by
        cases stored with
        | base => cases same
        | entry stored =>
            cases same
            rfl
      exact Or.inr ⟨numbered, (stands_iff shows.view.records).mpr recorded⟩
  · intro hs entries snap after loads
    rcases loads.view with ⟨other, rewrite, view, loaded, -⟩
    rw [view.load_same shows.view] at loaded
    rcases Disk.load_plain loaded with ⟨again, rfl⟩
    rw [ghost]
    exact has.loads _ again

def FileCluster.Preserves (fw : FileCluster) (setting : Setting) (codec : FileCodec)
    (log : List LogEntry) : Prop :=
  ∃ voters, setting.Quorum voters ∧ ∀ v ∈ voters, ∀ index entry, 0 < index →
    log[index - 1]? = some entry → Written codec (fw.dirs v) index entry

/-- A write that has been acknowledged is in the files of a majority: as a complete line that
decodes to the entry or in the snapshot, and in whatever `Load` returns. -/
theorem FileExecution.acknowledged_on_files {setting : Setting} {codec : FileCodec}
    (execution : FileExecution setting codec Cluster.Reliable) {time : Nat}
    (bound : time ≤ execution.length) {answer : Answer}
    (told : answer ∈ (execution.states time).memory.answers) (resolved : answer.Resolved) :
    ∃ proposal ∈ (execution.states time).memory.proposals, proposal.node = answer.node ∧
      proposal.chan = answer.chan ∧
      ∃ before, (execution.states time).Preserves setting codec (before ++ [proposal.entry]) := by
  rcases execution.exists_follows fun _ _ _ echoed => echoed.reliable with
    ⟨records, length, follows⟩
  rw [← length] at bound
  have mirrors := follows.mirrors time bound
  rw [mirrors.memory] at told ⊢
  rcases Cluster.answer_preserved (records.run bound) told resolved with
    ⟨proposal, made, node, chan, before, still⟩
  rcases still _ .refl with ⟨voters, quorum, kept⟩
  refine ⟨proposal, made, node, chan, before, voters, quorum, ?_⟩
  intro v counted index entry positive found
  exact Disk.HasEntry.written (mirrors.dirs v) (kept v counted index entry positive found)

namespace FileExecution

variable {setting : Setting} {codec : FileCodec} {allowed : Cluster → Event → Prop}

def begin (setting : Setting) (codec : FileCodec) (allowed : Cluster → Event → Prop) :
    FileExecution setting codec allowed where
  length := 0
  states _ := .initial
  events _ := .giveUp 0
  begun := rfl
  admitted time before := absurd before (Nat.not_lt_zero time)
  taken time before := absurd before (Nat.not_lt_zero time)

def extend (execution : FileExecution setting codec allowed) (event : Event) (next : FileCluster)
    (admitted : allowed (execution.states execution.length).memory event)
    (taken : (execution.states execution.length).step setting codec event = some next) :
    FileExecution setting codec allowed where
  length := execution.length + 1
  states time := if time ≤ execution.length then execution.states time else next
  events time := if time < execution.length then execution.events time else event
  begun := by rw [if_pos (Nat.zero_le _), execution.begun]
  admitted := by
    intro time before
    rw [if_pos (by omega)]
    split
    · rename_i earlier
      exact execution.admitted time earlier
    · rw [show time = execution.length by omega]
      exact admitted
  taken := by
    intro time before
    rw [if_pos (by omega)]
    split
    · rename_i earlier
      rw [if_pos (by omega)]
      exact execution.taken time earlier
    · rw [if_neg (by omega), show time = execution.length by omega]
      exact taken

def play [∀ w event, Decidable (allowed w event)]
    (execution : FileExecution setting codec allowed) :
    List Event → Option (FileExecution setting codec allowed)
  | [] => some execution
  | event :: events =>
      if admitted : allowed (execution.states execution.length).memory event then
        match taken : (execution.states execution.length).step setting codec event with
        | some next => play (execution.extend event next admitted taken) events
        | none => none
      else none

def final (execution : FileExecution setting codec allowed) : FileCluster :=
  execution.states execution.length

def roomySetting : Setting where
  peers := trioSetting.peers
  config id := { trio id with snapshotThreshold := 64 }
  codec := trioSetting.codec
  config_id _ := rfl
  config_peers _ := rfl

/-- The leader answers, crashes 30 bytes into the next line of its WAL, and comes back. -/
theorem acknowledged_on_files_torn :
    ∃ execution : FileExecution roomySetting jsonCodec Cluster.Reliable,
      (execution.final.memory.hosts "a").proc.isSome = true ∧
      ∃ answer ∈ execution.final.memory.answers, answer.result = Cluster.putResult ∧
        ∃ proposal ∈ execution.final.memory.proposals, proposal.node = answer.node ∧
          proposal.chan = answer.chan ∧
        ∃ before, execution.final.Preserves roomySetting jsonCodec
          (before ++ [proposal.entry]) := by
  have played : ((begin roomySetting jsonCodec Cluster.Reliable).play
      (Cluster.accepting ++ Cluster.committing ++ Cluster.applying "a" ++ Cluster.applying "a" ++
        [.answer "a" 0, .propose "a" { op := .put, key := "k", value := "w" } [.crash 30],
          .local "a" .restart []])).any (fun execution =>
        (execution.final.memory.hosts "a").proc.isSome && execution.final.memory.answers.any
        fun answer =>
          answer.error = none ∧ answer.result = Cluster.putResult) = true := by
    decide +kernel
  rw [Option.any_eq_true] at played
  rcases played with ⟨execution, -, checked⟩
  simp only [Bool.and_eq_true, List.any_eq_true, decide_eq_true_eq] at checked
  rcases checked with ⟨live, answer, told, success, result⟩
  exact ⟨execution, live, answer, told, result,
    acknowledged_on_files execution le_rfl told (Or.inl success)⟩

end FileExecution

end GoRaftKV.Raft
