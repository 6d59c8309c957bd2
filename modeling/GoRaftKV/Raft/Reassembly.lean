import GoRaftKV.Raft.Frames
import GoRaftKV.Raft.HostRuns

namespace GoRaftKV.Raft

open Storage Library Program

/-- The data of the snapshot that the stream `(LeaderID, LastIncludedIndex, LastIncludedTerm)`
carries. -/
abbrev Contents := NodeId → Nat → Nat → Option KVMap

section Streams

variable {codec : SnapshotCodec} {contents : Contents}

def Contents.body (contents : Contents) (codec : SnapshotCodec) (leaderID : NodeId)
    (index term : Nat) :
    Bytes :=
  codec.marshal (contents leaderID index term)

/-- `sendSnapshot` may make this request, at whatever offset it has been told to resume. -/
def Contents.Cuts (contents : Contents) (codec : SnapshotCodec) (req : InstallSnapshotRequest) :
    Prop :=
  ∃ (stream : Stream) (offset : Nat), req = stream.chunk codec offset ∧
    stream.snapshot.data = contents stream.node stream.snapshot.lastIncludedIndex
      stream.snapshot.lastIncludedTerm ∧
    offset ≤ (codec.marshal stream.snapshot.data).length

/-- The pending buffer is a prefix of its stream's body. -/
def Contents.Begins (contents : Contents) (codec : SnapshotCodec)
    (pending : Option SnapshotProgress) :
    Prop :=
  ∀ progress, pending = some progress →
    progress.buffer <+:
      contents.body codec progress.leaderID progress.lastIncludedIndex progress.lastIncludedTerm

theorem Contents.Cuts.extends {req : InstallSnapshotRequest} (cut : contents.Cuts codec req)
    {buffer : Bytes} (begun : buffer <+:
      contents.body codec req.leaderID req.lastIncludedIndex req.lastIncludedTerm)
    (fits : req.offset = buffer.length) :
    (buffer ++ req.data <+: contents.body codec req.leaderID req.lastIncludedIndex
      req.lastIncludedTerm) ∧ (req.done = true →
        buffer ++ req.data = contents.body codec req.leaderID req.lastIncludedIndex
          req.lastIncludedTerm) := by
  rcases cut with ⟨stream, offset, rfl, carried, bound⟩
  have whole : contents.body codec (stream.chunk codec offset).leaderID
      (stream.chunk codec offset).lastIncludedIndex (stream.chunk codec offset).lastIncludedTerm =
      codec.marshal stream.snapshot.data := by
    rw [carried]
    rfl
  rw [whole] at begun ⊢
  generalize sent : codec.marshal stream.snapshot.data = body at begun bound ⊢
  have length : offset = buffer.length := fits
  have taken : buffer = body.take offset := by
    rw [length]
    exact List.prefix_iff_eq_take.mp begun
  have data : (stream.chunk codec offset).data =
      (body.take (min (offset + stream.chunkSize) body.length)).drop offset := by
    rw [← sent]
    rfl
  have joined : buffer ++ (stream.chunk codec offset).data =
      body.take (min (offset + stream.chunkSize) body.length) := by
    calc buffer ++ (stream.chunk codec offset).data
        = (body.take (min (offset + stream.chunkSize) body.length)).take offset ++
            (body.take (min (offset + stream.chunkSize) body.length)).drop offset := by
          rw [data, List.take_take, Nat.min_eq_left (le_min (Nat.le_add_right _ _) bound), ← taken]
      _ = body.take (min (offset + stream.chunkSize) body.length) := List.take_append_drop _ _
  rw [joined]
  constructor
  · exact List.take_prefix _ _
  · intro done
    have last : min (offset + stream.chunkSize) body.length = body.length := by
      rw [← sent]
      exact of_decide_eq_true done
    rw [last, List.take_length]

end Streams

namespace Node

variable {cfg : Config} {codec : SnapshotCodec} {contents : Contents} {n : Node} {action : Action}

/-- What the first section of an installation ends in: a prefix of the body to wait with, or the
whole body to decode. -/
structure Collected (codec : SnapshotCodec) (contents : Contents) (req : InstallSnapshotRequest)
    (result : Node × InstallProgress) : Prop where
  begins : contents.Begins codec result.1.pendingSnapshot
  decodes : ∀ body, result.2 = .decode body →
    body = contents.body codec req.leaderID req.lastIncludedIndex req.lastIncludedTerm

theorem collected_answer {req : InstallSnapshotRequest} {resp : InstallSnapshotResponse}
    (begins : contents.Begins codec n.pendingSnapshot) :
    Collected codec contents req (n, .answer resp) := by
  refine ⟨begins, fun body decode => ?_⟩
  cases decode

theorem receiveChunk_collected {req : InstallSnapshotRequest} (cut : contents.Cuts codec req)
    {progress : SnapshotProgress} (same : progress.matches req = true)
    (begun : contents.Begins codec (some progress)) :
    Collected codec contents req (n.receiveChunk progress req) := by
  simp only [SnapshotProgress.matches, decide_eq_true_eq] at same
  rcases same with ⟨leader, index, term⟩
  unfold receiveChunk
  split
  · exact collected_answer begun
  · rename_i fits
    push Not at fits
    have prefixed := begun progress rfl
    rw [leader, index, term] at prefixed
    rcases cut.extends prefixed fits with ⟨begins, whole⟩
    have kept : contents.Begins codec
        (some { progress with buffer := progress.buffer ++ req.data }) := by
      intro other present
      cases present
      simp only [leader, index, term]
      exact begins
    simp only
    split
    · exact collected_answer kept
    · rename_i last
      refine ⟨kept, fun body decode => ?_⟩
      cases decode
      exact whole (Bool.eq_true_of_not_eq_false last)

theorem collectChunk_collected {req : InstallSnapshotRequest} (cut : contents.Cuts codec req)
    (begun : contents.Begins codec n.pendingSnapshot) :
    Collected codec contents req (n.collectChunk req) := by
  have fresh : contents.Begins codec (some
      { leaderID := req.leaderID, lastIncludedIndex := req.lastIncludedIndex
        lastIncludedTerm := req.lastIncludedTerm, buffer := [] }) := by
    intro progress present
    cases present
    exact List.nil_prefix
  unfold collectChunk
  simp only
  split
  · apply collected_answer
    intro progress present
    cases present
  split
  · rename_i progress present
    split
    · rename_i same
      apply receiveChunk_collected cut same
      rw [← present]
      exact begun
    split
    · exact collected_answer begun
    · exact receiveChunk_collected cut (by simp [SnapshotProgress.matches]) fresh
  · split
    · exact collected_answer begun
    · exact receiveChunk_collected cut (by simp [SnapshotProgress.matches]) fresh

theorem Frame.begins {m : Node} (frame : Frame cfg action n m) (whole : action.streams = false)
    (begun : contents.Begins codec n.pendingSnapshot) :
    contents.Begins codec m.pendingSnapshot := by
  intro progress present
  rcases frame.pending whole with same | none
  · rw [same] at present
    exact begun progress present
  · rw [none] at present
    cases present

theorem handleInstallSnapshot_collected {req : InstallSnapshotRequest}
    (cut : contents.Cuts codec req) (begun : contents.Begins codec n.pendingSnapshot) :
    (n.handleInstallSnapshot cfg req).All (Collected codec contents req) := by
  unfold handleInstallSnapshot
  split
  · exact collected_answer begun
  split
  · exact collected_answer begun
  split
  · exact collected_answer begun
  split
  · refine All.bind (stepDown_frame fun m saved (frame : Frame cfg .startElection n m) => ?_)
    cases saved with
    | true => exact collectChunk_collected cut (frame.begins rfl begun)
    | false =>
        apply collected_answer
        intro progress present
        cases present
  · exact collectChunk_collected cut begun

theorem installDecoded_snapshot (req : InstallSnapshotRequest) (body : Bytes)
    (data : Option KVMap) :
    (n.installDecoded cfg req body data).All fun r =>
      r.1.snapshot = n.snapshot ∨ r.1.snapshot =
        { lastIncludedIndex := req.lastIncludedIndex, lastIncludedTerm := req.lastIncludedTerm
          data := data, history := req.history } := by
  have finished (m : Node) (kept : m.snapshot = n.snapshot) :
      (m.finishInstall cfg req body data).All fun r =>
        r.1.snapshot = n.snapshot ∨ r.1.snapshot =
          { lastIncludedIndex := req.lastIncludedIndex, lastIncludedTerm := req.lastIncludedTerm
            data := data, history := req.history } := by
    unfold finishInstall
    simp only
    split
    · exact Or.inl kept
    split
    · exact Or.inl kept
    split
    · simp only [persistInstall, saveHardStateLocked, perform_bind, all_call, if_true]
      exact ⟨⟨⟨Or.inr rfl, Or.inl kept⟩, Or.inl kept⟩, Or.inl kept⟩
    · exact Or.inl kept
  unfold installDecoded
  simp only
  split
  · exact Or.inl rfl
  split
  · exact Or.inl rfl
  split
  · exact Or.inl rfl
  split
  · refine All.bind (becomeFollowerLocked_all ?_ ?_)
    · exact finished _ (steppedDown_eq n cfg req.term req.leaderID).2.1
    · rw [followerAt_eq]
      exact Or.inl rfl
  · exact finished n rfl

end Node

namespace Host

variable {cfg : Config} {codec : SnapshotCodec} {contents : Contents} {host : Host} {p q : Proc}
  {fates : List Fate} {action : Action}

/-- Chunks are those of `sendSnapshot`; everything else may happen in any order. -/
def Delivers (codec : SnapshotCodec) (contents : Contents) (_ : Host) (_ : List Fate) :
    Action → Prop
  | .installSnapshot _ req => contents.Cuts codec req
  | _ => True

/-- The buffer of a process is a prefix of its stream's body, and what it decodes is a whole
body. -/
structure Assembles (codec : SnapshotCodec) (contents : Contents) (p : Proc) : Prop where
  begins : contents.Begins codec p.node.pendingSnapshot
  decodes : ∀ call req body, p.persistMu = .decoding call req body →
    body = contents.body codec req.leaderID req.lastIncludedIndex req.lastIncludedTerm

theorem Assembles.receive (assembles : Assembles codec contents p) (live : host.proc = some p)
    {call : Nat} {req : InstallSnapshotRequest} (cut : contents.Cuts codec req)
    (alive : (host.step cfg codec fates (.installSnapshot call req)).1.proc = some q) :
    Assembles codec contents q := by
  simp only [Host.step, live, Proc.step] at alive
  split at alive
  · rename_i free
    rcases run_alive (Node.handleInstallSnapshot_collected cut assembles.begins) alive with
      ⟨⟨m, progress⟩, collected, same, -⟩
    cases progress with
    | answer resp =>
        cases same
        refine ⟨collected.begins, fun number other body held => ?_⟩
        cases free.symm.trans held
    | decode body =>
        cases same
        refine ⟨collected.begins, fun number other found held => ?_⟩
        cases held
        exact collected.decodes body rfl
  · cases live.symm.trans alive
    exact assembles

theorem Assembles.step (before : ∀ p, host.proc = some p → Assembles codec contents p)
    (delivered : host.Delivers codec contents fates action)
    (alive : (host.step cfg codec fates action).1.proc = some q) : Assembles codec contents q := by
  cases live : host.proc with
  | none =>
      simp only [Host.step, live] at alive
      split at alive
      · rename_i loaded _
        rcases run_alive (Node.newNode_does loaded).all alive with ⟨result, restored, same, -, -⟩
        rcases Option.map_eq_some_iff.mp same with ⟨n, present, made⟩
        rw [← made, restored n present]
        refine ⟨fun progress pending => ?_, fun number req body held => ?_⟩
        · cases pending
        · cases held
      · cases live.symm.trans alive
  | some p =>
      have assembles := before p live
      cases streams : action.streams with
      | true =>
          cases action with
          | installSnapshot call req => exact assembles.receive live delivered alive
          | _ => cases streams
      | false =>
          refine ⟨(step_frame live alive).begins streams assembles.begins, fun call req body held =>
            ?_⟩
          rcases step_decoding alive held with chunk | ⟨other, present, earlier⟩
          · rw [chunk] at streams
            cases streams
          · cases live.symm.trans present
            exact assembles.decodes call req body earlier

theorem Assembles.run {start final : Host} (down : start.proc = none)
    (run : Run cfg codec (Delivers codec contents) start final) (alive : final.proc = some q) :
    Assembles codec contents q := by
  induction run generalizing q with
  | refl => cases down.symm.trans alive
  | tail _ step ih =>
      cases step with
      | event fates action delivered => exact Assembles.step (fun p live => ih live) delivered alive

theorem step_installed (live : host.proc = some p)
    (alive : (host.step cfg codec fates .installDecoded).1.proc = some q)
    (changed : q.node.snapshot ≠ p.node.snapshot) : ∃ call req body data,
    p.persistMu = .decoding call req body ∧ codec.decodeBody body = some data ∧ q.node.snapshot =
      { lastIncludedIndex := req.lastIncludedIndex, lastIncludedTerm := req.lastIncludedTerm
        data := data, history := req.history } := by
  simp only [Host.step, live, Proc.step] at alive
  split at alive
  · rename_i call req body held
    split at alive
    · cases alive
      exact absurd rfl changed
    · rename_i data decoded
      split at alive
      · rcases run_alive (Node.installDecoded_snapshot req body data) alive with
          ⟨value, snapshot, same, -⟩
        cases same
        rcases snapshot with kept | installed
        · exact absurd kept changed
        · exact ⟨call, req, body, data, held, decoded, installed⟩
      · cases live.symm.trans alive
        exact absurd rfl changed
  · cases live.symm.trans alive
    exact absurd rfl changed

/-- Whatever order the chunks arrive in, the pending buffer is a prefix of its stream's body, a
body is decoded only when it is whole, and what is installed is that stream's snapshot. -/
theorem snapshot_reassembled {start : Host} (down : start.proc = none)
    (run : Run cfg codec (Delivers codec contents) start host) (live : host.proc = some p) :
    contents.Begins codec p.node.pendingSnapshot ∧
    (∀ call req body, p.persistMu = .decoding call req body →
      body = contents.body codec req.leaderID req.lastIncludedIndex req.lastIncludedTerm) ∧
    ∀ fates q, (host.step cfg codec fates .installDecoded).1.proc = some q →
      q.node.snapshot ≠ p.node.snapshot → ∃ call req body, p.persistMu = .decoding call req body ∧
        q.node.snapshot.lastIncludedIndex = req.lastIncludedIndex ∧
        q.node.snapshot.lastIncludedTerm = req.lastIncludedTerm ∧
        q.node.snapshot.data = contents req.leaderID req.lastIncludedIndex
          req.lastIncludedTerm := by
  have assembles := Assembles.run down run live
  refine ⟨assembles.begins, assembles.decodes, fun fates q alive changed => ?_⟩
  rcases step_installed live alive changed with ⟨call, req, body, data, held, decoded, installed⟩
  have whole := assembles.decodes call req body held
  have same : contents req.leaderID req.lastIncludedIndex req.lastIncludedTerm = data := by
    rw [whole, SnapshotCodec.decodeBody, Contents.body, if_neg (codec.marshal_ne_nil _),
      codec.unmarshal_marshal] at decoded
    exact Option.some.inj decoded
  rw [installed]
  exact ⟨call, req, body, held, rfl, rfl, same.symm⟩

/-- The empty map as a snapshot at index 3, sent by `b` one byte at a time. -/
def bytewise : Stream where
  node := "b"
  peer := "a"
  term := 1
  snapshot := { lastIncludedIndex := 3, lastIncludedTerm := 1, data := some ∅ }
  chunkSize := 1

/-- The second chunk comes first and is refused; a heartbeat passes between the two chunks. -/
def shuffled : List (List Fate × Action) :=
  [([], .restart), ([], .installSnapshot 0 (bytewise.chunk SnapshotJson.codec 1)),
   ([], .installSnapshot 1 (bytewise.chunk SnapshotJson.codec 0)),
   ([], .appendEntries { term := 1, leaderID := "b", prevLogIndex := 0, prevLogTerm := 0,
                         entries := [], leaderCommit := 0 }),
   ([], .installSnapshot 2 (bytewise.chunk SnapshotJson.codec 1))]

theorem snapshot_reassembled_shuffled : ∃ p q,
    (Host.after (trio "a") SnapshotJson.codec {} shuffled).proc = some p ∧
    ((Host.after (trio "a") SnapshotJson.codec {} shuffled).step (trio "a") SnapshotJson.codec []
      .installDecoded).1.proc = some q ∧
    q.node.snapshot.lastIncludedIndex = 3 ∧ p.node.snapshot.lastIncludedIndex = 0 ∧
    ∃ call req body, p.persistMu = .decoding call req body ∧
      q.node.snapshot.lastIncludedIndex = req.lastIncludedIndex ∧
      q.node.snapshot.lastIncludedTerm = req.lastIncludedTerm ∧ q.node.snapshot.data = some ∅ := by
  have delivered : Run (trio "a") SnapshotJson.codec
      (Delivers SnapshotJson.codec fun _ _ _ => some ∅) {}
      (Host.after (trio "a") SnapshotJson.codec {} shuffled) := by
    apply run_after
    have cut (offset : Nat) (bound : offset ≤ (SnapshotJson.codec.marshal (some ∅)).length) :
        Contents.Cuts (fun _ _ _ => some ∅) SnapshotJson.codec
          (bytewise.chunk SnapshotJson.codec offset) :=
      ⟨bytewise, offset, rfl, rfl, bound⟩
    simp only [shuffled, List.forall_mem_cons, Delivers, implies_true, true_and, List.not_mem_nil]
    exact ⟨fun _ => cut 1 (by decide +kernel), fun _ => cut 0 (by decide +kernel),
      fun _ => cut 1 (by decide +kernel), nofun⟩
  have before : (Host.after (trio "a") SnapshotJson.codec {} shuffled).proc.any
      (fun p => p.node.snapshot.lastIncludedIndex = 0) = true := by decide +kernel
  have after : ((Host.after (trio "a") SnapshotJson.codec {} shuffled).step (trio "a")
      SnapshotJson.codec [] .installDecoded).1.proc.any
      (fun q => q.node.snapshot.lastIncludedIndex = 3) = true := by decide +kernel
  rcases (Option.any_eq_true_iff_get _ _).mp before with ⟨up, old⟩
  rcases (Option.any_eq_true_iff_get _ _).mp after with ⟨still, new⟩
  simp only [decide_eq_true_eq] at old new
  have live := (Option.some_get up).symm
  have alive := (Option.some_get still).symm
  refine ⟨_, _, live, alive, new, old, ?_⟩
  apply (snapshot_reassembled rfl delivered live).2.2 [] _ alive
  intro same
  rw [same, old] at new
  cases new

end Host

end GoRaftKV.Raft
