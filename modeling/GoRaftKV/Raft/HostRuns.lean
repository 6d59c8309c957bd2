import GoRaftKV.Raft.HostSteps
import GoRaftKV.Raft.SnapshotJson
import GoRaftKV.Raft.Votes

namespace GoRaftKV.Raft

open Storage Library Program

theorem Node.upholds_applied {n : Node} (wf : WellFormed n) {entry : LogEntry}
    {result : ApplyResult} (still : n.stillApplies entry = true) :
    n.Upholds (finishWaitersLocked { n with lastApplied := entry.index } entry.index result) := by
  simp only [stillApplies, decide_eq_true_eq] at still
  have compacted := wf.compacted
  refine ⟨⟨wf.contiguous, ?_, still.2.1, wf.committed⟩, le_rfl, le_rfl, ?_, fun _ _ _ => rfl⟩
  · change n.snapshot.lastIncludedIndex ≤ entry.index
    omega
  · change n.lastApplied ≤ entry.index
    omega

theorem Proc.Move.upholds {cfg : Config} {chans more : Nat} {p q : Proc} {output : Output}
    (move : p.Move cfg chans output more q) (wf : WellFormed p.node) : p.node.Upholds q.node := by
  cases move with
  | quiet more m persistMu captured refused moves => exact moves.upholds wf
  | propose entry m leads next moves made =>
      have accepted := Node.Upholds.snoc (m := p.node.accepted cfg entry chans) wf next rfl rfl
        rfl rfl
      exact accepted.trans (moves.upholds accepted.wellFormed)
  | install m snapshot call req body held free moves follows commit newer index =>
      have before := moves.upholds wf
      exact before.trans (Node.upholds_install before.wellFormed newer)
  | compact snapshot held worth => exact Node.upholds_compact wf worth
  | applyNext => exact .refl wf
  | applyEntry => exact .of_same wf rfl rfl rfl rfl
  | applyDone entry result captured applied still => exact Node.upholds_applied wf still
  | applyStale => exact .refl wf

theorem restored_wellFormed {loaded : Loaded}
    (contiguous : Contiguous loaded.snapshot.lastIncludedIndex loaded.entries) :
    WellFormed (Node.restored loaded) := by
  have replayed := contiguous.takeWhile_le (Node.restored loaded).commitIndex
  have prefixed : Contiguous loaded.snapshot.lastIncludedIndex
      (loaded.entries.takeWhile fun entry => entry.index ≤ (Node.restored loaded).commitIndex) := by
    rw [replayed]
    exact contiguous.take _
  have applied : (Node.restored loaded).lastApplied = loaded.snapshot.lastIncludedIndex +
      (loaded.entries.takeWhile fun entry =>
        entry.index ≤ (Node.restored loaded).commitIndex).length :=
    prefixed.lastIndex
  rw [replayed, List.length_take] at applied
  have commit : (Node.restored loaded).commitIndex =
      min (max loaded.hardState.commitIndex loaded.snapshot.lastIncludedIndex)
        (loaded.snapshot.lastIncludedIndex + loaded.entries.length) := by
    rw [← contiguous.lastIndex]
    rfl
  have last : (Node.restored loaded).lastIndexLocked =
      loaded.snapshot.lastIncludedIndex + loaded.entries.length := contiguous.lastIndex
  refine ⟨contiguous, ?_, ?_, ?_⟩
  · rw [applied]
    exact Nat.le_add_right _ _
  · omega
  · omega

namespace Host

variable {cfg : Config} {codec : SnapshotCodec}

/-- One event that `allowed` admits. -/
inductive Step (cfg : Config) (codec : SnapshotCodec) (allowed : Host → List Fate → Action → Prop)
    (host : Host) : Host → Prop
  | event (fates : List Fate) (action : Action) (admitted : allowed host fates action) :
      Step cfg codec allowed host (host.step cfg codec fates action).1

/-- Any number of such events. -/
abbrev Run (cfg : Config) (codec : SnapshotCodec) (allowed : Host → List Fate → Action → Prop) :
    Host → Host → Prop :=
  Relation.ReflTransGen (Step cfg codec allowed)

/-- `NewNode` has just run on a data directory whose log continues its snapshot. -/
def Started (cfg : Config) (codec : SnapshotCodec) (fates : List Fate) (host : Host) : Prop :=
  ∃ (before : Host) (loaded : Loaded), before.proc = none ∧ before.disk.load = .ok loaded ∧
    Contiguous loaded.snapshot.lastIncludedIndex loaded.entries ∧
    host = (before.step cfg codec fates .restart).1

def Unrestarted (_ : Host) (_ : List Fate) (action : Action) : Prop := action ≠ .restart

/-- The life of one process that never splices an entry its snapshot already covers. -/
def Orderly (host : Host) (_ : List Fate) (action : Action) : Prop :=
  action ≠ .restart ∧ ∀ req p, action = .appendEntries req → host.proc = some p →
    p.node.SpliceSafe req.entries

theorem Started.wellFormed {fates : List Fate} {host : Host} {p : Proc}
    (started : Started cfg codec fates host) (alive : host.proc = some p) : WellFormed p.node := by
  obtain ⟨before, loaded, down, loads, contiguous, rfl⟩ := started
  simp only [Host.step, down, loads] at alive
  obtain ⟨result, restored, same, -, -⟩ := run_alive (Node.newNode_does loaded).all alive
  simp only [Option.map_eq_some_iff] at same
  obtain ⟨n, present, rfl⟩ := same
  rw [restored n present]
  exact restored_wellFormed contiguous

theorem step_down {host : Host} {fates : List Fate} {action : Action} (down : host.proc = none)
    (unrestarted : action ≠ .restart) : (host.step cfg codec fates action).1 = host := by
  unfold Host.step
  rw [down]
  simp only
  split
  · exact absurd rfl unrestarted
  · rfl

theorem Orderly.step_upholds {host : Host} {fates : List Fate} {action : Action}
    (orderly : host.Orderly fates action) (wf : ∀ p, host.proc = some p → WellFormed p.node)
    {q : Proc} (alive : (host.step cfg codec fates action).1.proc = some q) :
    ∃ p, host.proc = some p ∧ p.node.Upholds q.node := by
  cases live : host.proc with
  | none =>
      rw [step_down live orderly.1, live] at alive
      cases alive
  | some p =>
      have running : host.step cfg codec fates action = p.step cfg codec host fates action := by
        unfold Host.step
        rw [live]
      rw [running] at alive
      have move := step_move live (wf p live) (fun req same => orderly.2 req p same live) alive
      exact ⟨p, rfl, move.upholds (wf p live)⟩

theorem Run.upholds {start final : Host} (run : Run cfg codec Orderly start final)
    (wf : ∀ p, start.proc = some p → WellFormed p.node) {q : Proc} (alive : final.proc = some q) :
    ∃ p, start.proc = some p ∧ p.node.Upholds q.node := by
  induction run generalizing q with
  | refl => exact ⟨q, alive, .refl (wf q alive)⟩
  | tail run step ih =>
      cases step with
      | event fates action orderly =>
          obtain ⟨m, live, last⟩ := orderly.step_upholds (fun m live => by
            obtain ⟨_, _, middle⟩ := ih live
            exact middle.wellFormed) alive
          obtain ⟨p, first, middle⟩ := ih live
          exact ⟨p, first, middle.trans last⟩

/-- A process that never splices a covered entry keeps its log contiguous and its indexes in order
whatever requests arrive, and takes back neither a commit nor a snapshot. -/
theorem wellFormed_of_orderly_run {fates : List Fate} {start first second : Host} {q : Proc}
    (started : Started cfg codec fates start) (before : Run cfg codec Orderly start first)
    (after : Run cfg codec Orderly first second) (alive : second.proc = some q) :
    WellFormed q.node ∧ ∃ p, first.proc = some p ∧ p.node.commitIndex ≤ q.node.commitIndex ∧
      p.node.snapshot.lastIncludedIndex ≤ q.node.snapshot.lastIncludedIndex := by
  have middle : ∀ p, first.proc = some p → WellFormed p.node := fun p live => by
    obtain ⟨_, _, upholds⟩ := before.upholds (fun p live => started.wellFormed live) live
    exact upholds.wellFormed
  obtain ⟨p, live, upholds⟩ := after.upholds middle alive
  exact ⟨upholds.wellFormed, p, live, upholds.commit, upholds.compacted⟩

def after (cfg : Config) (codec : SnapshotCodec) (host : Host)
    (events : List (List Fate × Action)) :
    Host :=
  events.foldl (fun host event => (host.step cfg codec event.1 event.2).1) host

theorem run_after {allowed : Host → List Fate → Action → Prop} {host : Host}
    {events : List (List Fate × Action)}
    (admitted : ∀ event ∈ events, ∀ host, allowed host event.1 event.2) :
    Run cfg codec allowed host (host.after cfg codec events) := by
  induction events generalizing host with
  | nil => exact .refl
  | cons event events ih =>
      refine .head (.event event.1 event.2 (admitted event List.mem_cons_self host)) ?_
      exact ih fun other member => admitted other (List.mem_cons_of_mem _ member)

end Host

def trio (id : NodeId) : Config where
  id := id
  address := id
  peers := {"a", "b", "c"}
  peerAddress := fun peer => peer
  clientAddress := fun peer => peer
  snapshotThreshold := 1
  snapshotChunkBytes := 64

namespace Host

def entryAt (index term : Nat) : LogEntry :=
  { index := index, term := term, command := { op := .noop } }

def compactedDisk : Disk where
  hardState := some { currentTerm := 1 }
  wal := some (walImage 3 1 [entryAt 4 1, entryAt 5 1])
  snapshot := some { lastIncludedIndex := 3, lastIncludedTerm := 1, data := some ∅ }

def compactedStart : Host :=
  (Host.step (trio "a") SnapshotJson.codec { disk := compactedDisk } [] .restart).1

theorem compactedStart_started : Started (trio "a") SnapshotJson.codec [] compactedStart := by
  refine ⟨{ disk := compactedDisk }, _, rfl, rfl, ?_, rfl⟩
  simp [compactedDisk, entriesAfter, entryAt]

def overwrite : AppendEntriesRequest where
  term := 2
  leaderID := "b"
  prevLogIndex := 3
  prevLogTerm := 1
  entries := [entryAt 4 2, entryAt 5 2]
  leaderCommit := 4

theorem wellFormed_after_overwrite :
    ∃ p, (compactedStart.after (trio "a") SnapshotJson.codec
      [([], .appendEntries overwrite)]).proc =
        some p ∧ p.node.log = [entryAt 4 2, entryAt 5 2] ∧ p.node.commitIndex = 4 ∧
      WellFormed p.node := by
  have orderly : Run (trio "a") SnapshotJson.codec Orderly compactedStart
      (compactedStart.after (trio "a") SnapshotJson.codec [([], .appendEntries overwrite)]) := by
    refine run_after fun event member host => ?_
    rw [List.mem_singleton.mp member]
    refine ⟨by simp, fun req p same _ => ?_⟩
    cases same
    exact Node.spliceSafe_of_contiguous 3 (by simp [overwrite, entryAt])
  exact ⟨_, rfl, rfl, rfl, (wellFormed_of_orderly_run compactedStart_started .refl orderly rfl).1⟩

def staleSplice : AppendEntriesRequest where
  term := 2
  leaderID := "b"
  prevLogIndex := 3
  prevLogTerm := 1
  entries := [entryAt 4 2, entryAt 2 2, entryAt 5 2]
  leaderCommit := 0

/-- Accepted, `staleSplice` leaves index 2 between 4 and 5 in the log. -/
theorem malformed_log_after_splice : ∃ start final p,
    Started (trio "a") SnapshotJson.codec [] start ∧
    Run (trio "a") SnapshotJson.codec Unrestarted start final ∧ final.proc = some p ∧
    p.node.log = [entryAt 4 2, entryAt 2 2, entryAt 5 2] ∧ ¬ WellFormed p.node := by
  refine ⟨compactedStart, compactedStart.after _ _ [([], .appendEntries staleSplice)], _,
    compactedStart_started, run_after ?_, rfl, rfl, ?_⟩
  · simp [Unrestarted]
  · intro wf
    have position := wf.contiguous 1 (entryAt 2 2) rfl
    revert position
    decide

end Host

end GoRaftKV.Raft
