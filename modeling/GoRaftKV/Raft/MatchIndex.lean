import GoRaftKV.Raft.SimulatedCluster
import GoRaftKV.Raft.Proposals

/-! What a follower has acknowledged stays in its files for as long as its term lasts. -/

namespace GoRaftKV.Raft

open Storage Library Program

/-- The term a machine is in: memory's, or that of its hard state while it is down. -/
def Host.currentTerm (host : Host) : Nat :=
  match host.proc with
  | some p => p.node.currentTerm
  | none => (host.disk.hardState.getD {}).currentTerm

/-- The snapshot was built from `entry`, at `index`. -/
def Snapshot.Includes (snapshot : Snapshot) (index : Nat) (entry : LogEntry) : Prop :=
  index ≤ snapshot.lastIncludedIndex ∧ snapshot.history[index - 1]? = some entry

/-- The loaded snapshot covers `entry`, or it is one of the loaded entries. -/
def Loaded.HasEntry (loaded : Loaded) (index : Nat) (entry : LogEntry) : Prop :=
  Snapshot.Includes loaded.snapshot index entry ∨ entry.index = index ∧ entry ∈ loaded.entries

/-- The snapshot file covers `entry` or the WAL has a line with it, and so has whatever `Load`
returns. -/
structure Disk.HasEntry (disk : Disk) (index : Nat) (entry : LogEntry) : Prop where
  files : Snapshot.Includes (disk.snapshot.getD {}) index entry ∨ entry.index = index ∧
    entry ∈ walLines disk
  loads : ∀ loaded, disk.load = .ok loaded → Loaded.HasEntry loaded index entry

def Node.HasEntry (n : Node) (index : Nat) (entry : LogEntry) : Prop :=
  Snapshot.Includes n.snapshot index entry ∨ n.entryAtLocked index = some entry

theorem load_lines {disk : Disk} {loaded : Loaded} (loads : disk.load = .ok loaded) :
    loaded.snapshot = disk.snapshot.getD {} ∧ ∀ entry ∈ loaded.entries, entry ∈ walLines disk := by
  rcases Disk.load_cases loads with ⟨data, read, cases⟩
  have lines : data.entries = walLines disk := readRecords_entry read
  rw [← lines]
  rcases cases with ⟨-, rfl⟩ | ⟨-, -, rfl⟩
  · refine ⟨rfl, fun entry member => ?_⟩
    simp only [reconcileWALWithSnapshot, entriesAfter] at member
    split at member
    · exact List.mem_of_mem_filter member
    split at member
    · exact List.mem_of_mem_filter member
    split at member
    · cases member
    · cases member
  · exact ⟨rfl, fun entry member => member⟩

section Kept

variable {setting : Setting} {a : Ideal} {v : NodeId} {disk : Disk} {k : Node} {index : Nat}
  {entry : LogEntry}

theorem Agreed.includes_or {snapshot : Snapshot} {rest : List LogEntry} (agreed : Agreed a snapshot)
    (positive : 0 < index) (found : (snapshot.history ++ rest)[index - 1]? = some entry) :
    Snapshot.Includes snapshot index entry ∨ entry ∈ rest := by
  have length := agreed.length
  rcases Nat.lt_or_ge (index - 1) snapshot.history.length with covered | after
  · rw [List.getElem?_append_left covered] at found
    exact Or.inl ⟨by omega, found⟩
  · rw [List.getElem?_append_right after] at found
    exact Or.inr (List.mem_of_getElem? found)

theorem Left.keeps (left : Left disk k) (realizes : k.Realizes a setting.codec v)
    (inv : Consensus.Inv LogEntry.term setting.Quorum a) (agreed : Agreed a (disk.snapshot.getD {}))
    (positive : 0 < index) (found : k.fullLog[index - 1]? = some entry) :
    Disk.HasEntry disk index entry := by
  have numbered : entry.index = index := by
    have placed := realizes.whole.numbered _ _ found
    omega
  rcases left with ⟨base, commit, rewrite, covers, -, loads⟩ | ⟨base, broken⟩
  · rcases load_lines loads with ⟨same, lines⟩
    simp only at same lines
    rw [← same] at agreed
    rw [← realizes.recoveredLog inv agreed covers] at found
    have kept := agreed.includes_or positive found
    refine ⟨?_, ?_⟩
    · rw [← same]
      exact kept.imp_right fun member => ⟨numbered, lines entry member⟩
    · intro loaded again
      rw [loads] at again
      cases again
      exact kept.imp_right fun member => ⟨numbered, member⟩
  · refine ⟨?_, ?_⟩
    · rw [broken.snapshot] at agreed ⊢
      rcases realizes.snapshot.includes_or positive found with ⟨covered, -⟩ | member
      · have worth := broken.ready.1
        simp only [Node.worthPersisting, decide_eq_true_eq] at worth
        have history := realizes.history inv agreed (worth.2.trans realizes.wf.applied)
        refine Or.inl ⟨by omega, ?_⟩
        rw [history, List.getElem?_take_of_lt (by omega)]
        exact found
      · rw [broken.entries]
        exact Or.inr ⟨numbered, member⟩
    · intro loaded loads
      rcases broken.unreadable with ⟨error, refused⟩
      rcases Disk.load_cases loads with ⟨data, read, -⟩
      rw [refused] at read
      cases read

theorem Node.Realizes.keeps (realizes : k.Realizes a setting.codec v) (positive : 0 < index)
    (found : k.fullLog[index - 1]? = some entry) : k.HasEntry index entry := by
  rcases Nat.lt_or_ge k.snapshot.lastIncludedIndex index with after | covered
  · rw [← realizes.whole.entryAt after] at found
    exact Or.inr found
  · refine Or.inl ⟨covered, ?_⟩
    rw [← realizes.whole.take_compacted, List.getElem?_take_of_lt (by omega)]
    exact found

/-- A machine of the protocol, up or down: its term is the protocol's, and its files and memory
keep its log. -/
theorem Host.Realizes.keeps {host : Host} (realizes : host.Realizes a setting v)
    (inv : Consensus.Inv LogEntry.term setting.Quorum a) :
    host.currentTerm = a.term v ∧ ∀ index entry, 0 < index → (a.log v)[index - 1]? = some entry →
      Disk.HasEntry host.disk index entry ∧ ∀ p, host.proc = some p →
        p.node.HasEntry index entry := by
  unfold Host.Realizes at realizes
  unfold Host.currentTerm
  cases live : host.proc with
  | none =>
      rw [live] at realizes
      rcases realizes with ⟨agreed, k, -, now, left⟩
      have hardState : (host.disk.hardState.getD {}).currentTerm = k.currentTerm := by
        rcases left with ⟨base, commit, rewrite, -, -, loads⟩ | ⟨base, broken⟩
        · rw [(Disk.load_records loads).2.1]
          rfl
        · rw [broken.hardState]
          rfl
      refine ⟨hardState.trans now.term.symm, fun index entry positive found =>
        ⟨?_, fun p alive => nomatch alive⟩⟩
      rw [now.log] at found
      exact left.keeps now inv agreed positive found
  | some p =>
      rw [live] at realizes
      refine ⟨realizes.node.term.symm, fun index entry positive found => ?_⟩
      rw [realizes.node.log] at found
      have agreed : Agreed a (host.disk.snapshot.getD {}) := by
        rw [realizes.files.saved]
        exact realizes.based
      refine ⟨(realizes.files.left realizes.node.wf).keeps realizes.node inv agreed positive found,
        ?_⟩
      rintro q ⟨⟩
      exact realizes.node.keeps positive found

end Kept

namespace Cluster

variable {setting : Setting} {first second : Cluster}

/-- The files keep it whether or not `Load` accepts them. -/
theorem matchIndex_files (before : Run setting Reliable initial first)
    (after : Run setting Reliable first second) {leader peer : NodeId} {p : Proc}
    (live : (first.hosts leader).proc = some p) (leads : p.node.role = .leader)
    (remote : peer ≠ leader) (current : (second.hosts peer).currentTerm = p.node.currentTerm)
    {index : Nat} (positive : 0 < index) (matched : index ≤ p.node.matchIndex peer) :
    ∃ entry, p.node.fullLog[index - 1]? = some entry ∧
      Disk.HasEntry (second.hosts peer).disk index entry ∧ ∀ q, (second.hosts peer).proc = some q →
        q.node.HasEntry index entry := by
  rcases realizes_of_run before with ⟨a, early⟩
  rcases early.run after with ⟨b, grows, late⟩
  have own := early.hosts leader
  simp only [Host.Realizes, live] at own
  rcases (own.node.leads leads).peers peer remote with zero | ⟨ack, acked, rfl, term, reach⟩
  · omega
  · have covered := matched.trans reach
    have log := (own.node.leaderLog early.inv leads).2
    rcases late.hosts ack.node |>.keeps late.inv with ⟨now, keeps⟩
    have held : (b.leaderLog ack.term).take index <+: b.log ack.node := by
      apply late.inv.acknowledged (grows.acks acked) _ covered
      rw [← now, current, term]
    have bound : index ≤ (a.leaderLog ack.term).length :=
      covered.trans (early.inv.ackTerm ack acked).2.2
    rw [term] at bound held
    rw [log] at bound
    have part : p.node.fullLog.take index <+: b.log ack.node := by
      rw [← log]
      rw [grows.take (log ▸ bound)] at held
      exact held
    have inside : index - 1 < p.node.fullLog.length := by omega
    refine ⟨_, List.getElem?_eq_getElem inside, keeps index _ positive ?_⟩
    rcases part with ⟨rest, whole⟩
    rw [← whole, List.getElem?_append_left (by rw [List.length_take_of_le bound]; omega),
      List.getElem?_take_of_lt (by omega)]
    exact List.getElem?_eq_getElem inside

/-- No store call fails, and no request conflicts with a log between the two writes of its node's
`persistSnapshot`. -/
def Calm (setting : Setting) (w : Cluster) (event : Event) : Prop :=
  w.Reliable event ∧ ∀ task ∈ w.server setting event, (w.hosts task.node).Undisturbed task.action

instance (setting : Setting) (w : Cluster) (event : Event) : Decidable (Calm setting w event) := by
  unfold Calm
  infer_instance

theorem reliable_of_calm {w : Cluster} (run : Run setting (Calm setting) w second) :
    Run setting Reliable w second := by
  refine Relation.ReflTransGen.mono ?_ _ _ run
  rintro w next ⟨event, _, calm, taken⟩
  exact .event event next calm.1 taken

theorem safe_of_run {w : Cluster} (run : Run setting (Calm setting) initial w) (id : NodeId) :
    (w.hosts id).Safe := by
  induction run generalizing id with
  | refl => exact .down ⟨_, rfl, contiguous_nil _⟩
  | tail run step ih =>
      rcases step with ⟨event, next, calm, taken⟩
      have sound := sound_of_run run
      rcases step_host taken id with same | ⟨task, ran, rfl, -, stepped⟩
      · rw [same]
        exact ih id
      · rw [stepped]
        apply (ih task.node).step
        · rw [server_fates ran]
          exact calm.1.1
        · exact fun req p action _ => sound.spliceSafe (server_asked ran) p.node action
        · exact calm.2 task ran

/-- What a leader counts as replicated is in the peer's files, now and at any later time of the same
term: `Load` accepts them and returns the entry. -/
theorem matchIndex_sound (before : Run setting (Calm setting) initial first)
    (after : Run setting (Calm setting) first second) {leader peer : NodeId} {p : Proc}
    (live : (first.hosts leader).proc = some p) (leads : p.node.role = .leader)
    (remote : peer ≠ leader) (current : (second.hosts peer).currentTerm = p.node.currentTerm)
    {index : Nat} (positive : 0 < index) (matched : index ≤ p.node.matchIndex peer) :
    ∃ entry loaded, p.node.fullLog[index - 1]? = some entry ∧
      (second.hosts peer).disk.load = .ok loaded ∧ Loaded.HasEntry loaded index entry ∧
      ∀ q, (second.hosts peer).proc = some q → q.node.HasEntry index entry := by
  rcases matchIndex_files (reliable_of_calm before) (reliable_of_calm after) live leads remote
    current positive matched with ⟨entry, found, files, memory⟩
  rcases (safe_of_run (before.trans after) peer).load with ⟨loaded, loads, -⟩
  exact ⟨entry, loaded, found, loads, files.loads loaded loads, memory⟩

def comeback : List Event := [.local "c" .crash [], .local "c" .restart []]

def counts (peer : NodeId) (index : Nat) (p : Proc) : Bool :=
  p.node.role = .leader ∧ p.node.currentTerm = 1 ∧ index ≤ p.node.matchIndex peer

theorem matchIndex_sound_comeback :
    ∃ first second p entry loaded, Run trioSetting (Calm trioSetting) initial first ∧
      Run trioSetting (Calm trioSetting) first second ∧ (first.hosts "a").proc = some p ∧
      p.node.role = .leader ∧
    (second.hosts "c").currentTerm = p.node.currentTerm ∧ 2 ≤ p.node.matchIndex "c" ∧
    p.node.fullLog[1]? = some entry ∧ (second.hosts "c").disk.load = .ok loaded ∧
      Loaded.HasEntry loaded 2 entry ∧
    ∀ q, (second.hosts "c").proc = some q → q.node.HasEntry 2 entry := by
  have played : (play trioSetting (Calm trioSetting) initial (accepting ++ committing)).any
      (fun first =>
      first.holdsAt "a" (counts "c" 2) && (play trioSetting (Calm trioSetting) first comeback).any
        fun second =>
        decide ((second.hosts "c").currentTerm = 1)) = true := by decide +kernel
  rcases play_any played with ⟨first, before, checked⟩
  simp only [Bool.and_eq_true] at checked
  rcases play_any checked.2 with ⟨second, after, later⟩
  rcases holdsAt_proc checked.1 with ⟨p, live, counted⟩
  simp only [counts, decide_eq_true_eq] at counted later
  have current : (second.hosts "c").currentTerm = p.node.currentTerm := later.trans counted.2.1.symm
  rcases matchIndex_sound before after live counted.1 (by decide) current (by decide)
    counted.2.2 with
    ⟨entry, loaded, found, kept⟩
  exact ⟨first, second, p, entry, loaded, before, after, live, counted.1, current, counted.2.2,
    found, kept⟩

/-- `b` acknowledges and commits three entries of `a` and applies the first; `a` commits two more
with `c` and compacts its log up to the fourth. -/
def trailing : List Event :=
  [.local "a" .restart [], .local "b" .restart [], .local "c" .restart [],
   .campaign "a" [], .solicit 0 "b", .deliver 0 [], .win 0 [],
   .propose "a" { op := .put, key := "k", value := "u" } [],
   .propose "a" { op := .put, key := "k", value := "v" } [],
   .replicate "a" "b", .deliver 1 [], .reply 1 [], .replicate "a" "b", .deliver 2 [], .reply 2 [],
   .local "b" .applyNext [], .local "b" .applyEntry [], .local "b" .applyDone [],
   .propose "a" { op := .put, key := "k", value := "w" } [],
   .propose "a" { op := .put, key := "k", value := "x" } [],
   .replicate "a" "c", .deliver 3 [], .reply 3 []] ++
  applying "a" ++ applying "a" ++ applying "a" ++ applying "a"

/-- The snapshot of `a` reaches `b`, whose last write fails; the apply loop of `b` saves its own
older snapshot over it, and `b` crashes and comes back. -/
def overwriting : List Event :=
  [.replicate "a" "b", .chunk 0 0, .deliver 4 [], .local "b" .installDecoded [.ok, .ok, .err 0],
   .local "b" (.persistCheck 0) [], .local "b" .persistSave [], .local "b" .crash [],
   .local "b" .restart []]

def lostEntries (p : Proc) : Bool :=
  p.node.currentTerm = 1 ∧ p.node.snapshot.lastIncludedIndex = 1 ∧ p.node.log = []

/-- One failed `SaveHardState` is enough: a leader counts three entries on a peer of its term whose
files hold the first one only. -/
theorem matchIndex_lost : ∃ w p q loaded, Run trioSetting Faulty initial w ∧
    (w.hosts "a").proc = some p ∧ p.node.role = .leader ∧ (w.hosts "b").proc = some q ∧
    q.node.currentTerm = p.node.currentTerm ∧ 3 ≤ p.node.matchIndex "b" ∧
    (w.hosts "b").disk.load = .ok loaded ∧ ∀ entry, ¬ Loaded.HasEntry loaded 3 entry := by
  have played : (play trioSetting Faulty initial (trailing ++ overwriting)).any (fun w =>
      w.holdsAt "a" (counts "b" 3) && w.holdsAt "b" lostEntries &&
      ((w.hosts "b").disk.load.toOption.any fun loaded =>
        loaded.snapshot.lastIncludedIndex = 1 ∧ loaded.entries = [])) = true := by decide +kernel
  rcases play_any played with ⟨w, run, checked⟩
  simp only [Bool.and_eq_true] at checked
  rcases checked with ⟨⟨leader, follower⟩, stored⟩
  rcases holdsAt_proc leader with ⟨p, live, counted⟩
  rcases holdsAt_proc follower with ⟨q, up, lost⟩
  rcases (Option.any_eq_true _ _).mp stored with ⟨loaded, found, little⟩
  simp only [counts, lostEntries, decide_eq_true_eq] at counted lost little
  refine ⟨w, p, q, loaded, run, live, counted.1, up, lost.1.trans counted.2.1.symm, counted.2.2,
    ?_, ?_⟩
  · cases load : (w.hosts "b").disk.load with
    | error error =>
        rw [load] at found
        cases found
    | ok other =>
        rw [load] at found
        cases found
        rfl
  · rintro entry (⟨covered, -⟩ | ⟨-, member⟩)
    · omega
    · rw [little.2] at member
      cases member

end Cluster

end GoRaftKV.Raft
