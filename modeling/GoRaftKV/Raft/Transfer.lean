import GoRaftKV.Raft.Chunks

namespace GoRaftKV.Raft

open Storage Library Program

/-- A `sendSnapshot` call and the follower that answers its chunks, one after the other. -/
structure Conversation (cfg : Config) (codec : SnapshotCodec) (stream : Stream) (leaderCfg : Config)
    (leader : Node) where
  hosts : Nat → Host
  answers : Nat → InstallSnapshotResponse
  served : ∀ rpcs offset, stream.sendSnapshot leaderCfg codec leader answers rpcs =
    .sending offset → Host.Serves cfg codec (stream.chunk codec offset) (hosts rpcs) (answers rpcs)
      (hosts (rpcs + 1))

theorem Host.Heeds.serves {cfg : Config} {codec : SnapshotCodec} {req : InstallSnapshotRequest}
    {host next : Host} {resp : InstallSnapshotResponse}
    (heeds : Heeds cfg codec req host resp next) :
    Serves cfg codec req host resp next := by
  have loosen {first last : Host} (run : Run cfg codec Aside first last) :
      Run cfg codec (fun _ _ _ => True) first last := by
    refine Relation.ReflTransGen.mono ?_ _ _ run
    rintro _ _ ⟨fates, action, _⟩
    exact .event fates action trivial
  cases heeds with
  | answered before fates call p others live idle running sound known completes answer =>
      exact .answered before fates call (loosen others) answer
  | decoded before between fates last call p q body others live idle running sound known completes
      taken held readable meanwhile finishes answer =>
      exact .decoded before between fates last call q body (loosen others) taken held
        (loosen meanwhile) answer

namespace Conversation

variable {cfg leaderCfg : Config} {codec : SnapshotCodec} {stream : Stream} {leader : Node}

def position (talk : Conversation cfg codec stream leaderCfg leader) (rpcs : Nat) : Transfer :=
  stream.sendSnapshot leaderCfg codec leader talk.answers rpcs

/-- Nothing hinders the follower in answering the next chunk. -/
def Unhindered (talk : Conversation cfg codec stream leaderCfg leader) (rpcs : Nat) : Prop :=
  ∀ offset, talk.position rpcs = .sending offset →
    Host.Heeds cfg codec (stream.chunk codec offset) (talk.hosts rpcs) (talk.answers rpcs)
      (talk.hosts (rpcs + 1))

/-- The follower waits for the chunk that the call is about to send. -/
def InStep (talk : Conversation cfg codec stream leaderCfg leader) (rpcs offset : Nat) : Prop :=
  talk.position rpcs = .sending offset ∧ ∀ p, (talk.hosts rpcs).proc = some p →
    p.node.Awaits (stream.chunk codec offset) offset

variable {talk : Conversation cfg codec stream leaderCfg leader} {rpcs offset : Nat}

/-- An unhindered chunk ends the call or brings the two parties in step, and further on if they have
been in step before. -/
theorem advance (positive : 0 < stream.chunkSize) (unhindered : talk.Unhindered rpcs)
    (sending : talk.position rpcs = .sending offset) :
    (∃ acked, talk.position (rpcs + 1) = .returned acked) ∨
      ∃ next, talk.InStep (rpcs + 1) next ∧ (talk.InStep rpcs offset → offset < next) := by
  have moved : talk.position (rpcs + 1) = stream.resume codec offset
      (leader.sendSnapshotReply leaderCfg stream.term (talk.answers rpcs)).value.2
      (talk.answers rpcs) := by
    simp only [position, Stream.sendSnapshot] at sending ⊢
    rw [sending]
  cases leads : (leader.sendSnapshotReply leaderCfg stream.term (talk.answers rpcs)).value.2 with
  | false =>
      left
      rw [moved, leads]
      exact ⟨false, rfl⟩
  | true =>
      rcases (unhindered offset sending).advances (Stream.reply_leads leads) with
        ⟨p, q, live, alive, advances⟩
      have awaiting {next : Nat} (ready : q.node.Awaits (stream.chunk codec offset) next) :
          ∀ r, (talk.hosts (rpcs + 1)).proc = some r →
            r.node.Awaits (stream.chunk codec next) next := by
        intro r present
        cases alive.symm.trans present
        exact ready
      rw [leads] at moved
      rcases advances with ⟨success, ready⟩ | ⟨refusal, unready, ready⟩
      · cases done : (stream.chunk codec offset).done with
        | true =>
            left
            rw [moved]
            exact ⟨true, by simp [Stream.resume, success, done]⟩
        | false =>
            right
            have next : talk.position (rpcs + 1) = .sending (stream.finish codec offset) := by
              rw [moved]
              simp [Stream.resume, success, done]
            refine ⟨stream.finish codec offset, ⟨next, awaiting ?_⟩, fun _ => ?_⟩
            · rw [← Stream.chunk_ends (Stream.sending_bound sending)]
              exact ready done
            · have short : stream.finish codec offset ≠ stream.total codec := by
                intro whole
                cases done.symm.trans (Stream.chunk_done.mpr whole)
              unfold Stream.finish at short ⊢
              omega
      · by_cases stopped : ∃ acked, talk.position (rpcs + 1) = .returned acked
        · exact Or.inl stopped
        · right
          have next : talk.position (rpcs + 1) = .sending (talk.answers rpcs).bytesReceived := by
            rw [moved] at stopped ⊢
            simp only [Stream.resume, refusal] at stopped ⊢
            simp only [Bool.true_eq_false, if_false, if_true] at stopped ⊢
            split at stopped
            · exact absurd ⟨false, rfl⟩ stopped
            · split at stopped
              · exact absurd ⟨false, rfl⟩ stopped
              · rename_i more within
                rw [if_neg more, if_neg within]
          exact ⟨_, ⟨next, awaiting ready⟩, fun inStep => absurd (inStep.2 p live) unready⟩

/-- From parties in step the call returns: each chunk moves its offset towards the end of the
body. -/
theorem InStep.returns (positive : 0 < stream.chunkSize) (inStep : talk.InStep rpcs offset)
    (unhindered : ∀ later, rpcs ≤ later → talk.Unhindered later) :
    ∃ later acked, talk.position later = .returned acked := by
  induction left : stream.total codec - offset using Nat.strong_induction_on generalizing rpcs
    offset with
  | _ left ih =>
      rcases advance positive (unhindered rpcs le_rfl) inStep.1 with
        ⟨acked, returned⟩ | ⟨next, further, progress⟩
      · exact ⟨rpcs + 1, acked, returned⟩
      · have forward := progress inStep
        have bound := Stream.sending_bound further.1
        refine ih (stream.total codec - next) ?_ further (fun later after => unhindered later ?_)
          rfl
        · omega
        · omega

theorem position_returned {acked : Bool} (returned : talk.position rpcs = .returned acked)
    {later : Nat} (after : rpcs ≤ later) : talk.position later = .returned acked := by
  induction later, after using Nat.le_induction with
  | base => exact returned
  | succ later _ ih =>
      unfold position Stream.sendSnapshot
      rw [show stream.sendSnapshot leaderCfg codec leader talk.answers later =
        .returned acked from ih]

/-- `sendSnapshot` returns just when only finitely many of its chunks meet a follower that is
hindered. -/
theorem sendSnapshot_returns (talk : Conversation cfg codec stream leaderCfg leader)
    (positive : 0 < stream.chunkSize) :
    (∃ rpcs acked, stream.sendSnapshot leaderCfg codec leader talk.answers rpcs = .returned acked) ↔
      ∃ bound, ∀ rpcs, bound ≤ rpcs → talk.Unhindered rpcs := by
  constructor
  · rintro ⟨rpcs, acked, returned⟩
    refine ⟨rpcs, fun later after offset sending => ?_⟩
    cases (position_returned returned after).symm.trans sending
  · rintro ⟨bound, unhindered⟩
    cases here : talk.position bound with
    | returned acked => exact ⟨bound, acked, here⟩
    | sending offset =>
        rcases advance positive (unhindered bound le_rfl) here with
          ⟨acked, returned⟩ | ⟨next, inStep, -⟩
        · exact ⟨bound + 1, acked, returned⟩
        · exact inStep.returns positive fun later after => unhindered later (by omega)

def sender : Node := { role := .leader, currentTerm := 1 }

/-- The empty map as a snapshot at index 3, small enough for one chunk. -/
def shipment : Stream where
  node := "b"
  peer := "a"
  term := 1
  snapshot := { lastIncludedIndex := 3, lastIncludedTerm := 1, data := some ∅ }
  chunkSize := 64

def listener : Host := (Host.step (trio "a") SnapshotJson.codec {} [] .restart).1

def taking : Host :=
  (listener.step (trio "a") SnapshotJson.codec []
    (.installSnapshot 0 (shipment.chunk SnapshotJson.codec 0))).1

def accepted : InstallSnapshotResponse := { term := 1, success := true, bytesReceived := 2 }

/-- The section has answered RPC 0 with `resp`. -/
def answersWith (resp : InstallSnapshotResponse) : Output → Bool
  | .snapshot number other => number = 0 ∧ other = resp
  | _ => false

theorem output_of_answersWith {output : Output} {resp : InstallSnapshotResponse}
    (answered : answersWith resp output = true) : output = .snapshot 0 resp := by
  unfold answersWith at answered
  split at answered
  · rcases of_decide_eq_true answered with ⟨rfl, rfl⟩
    rfl
  · cases answered

theorem listener_heeds :
    Host.Heeds (trio "a") SnapshotJson.codec (shipment.chunk SnapshotJson.codec 0) listener accepted
      (taking.step (trio "a") SnapshotJson.codec [] .installDecoded).1 := by
  have decoding : taking.proc.any (fun q => q.persistMu =
      .decoding 0 (shipment.chunk SnapshotJson.codec 0) (SnapshotJson.codec.marshal (some ∅))) =
        true := by
    decide +kernel
  rcases (Option.any_eq_true_iff_get _ _).mp decoding with ⟨up, held⟩
  have completes : Completes [] := fun _ member => absurd member List.not_mem_nil
  refine .decoded listener taking [] [] 0 _ _ _ .refl rfl rfl rfl rfl ?_ completes
    (Option.some_get up).symm (of_decide_eq_true held) ?_ .refl completes (output_of_answersWith ?_)
  · decide
  · decide +kernel
  · decide +kernel

theorem shipment_accepted (rpcs : Nat) : shipment.sendSnapshot (trio "b") SnapshotJson.codec sender
    (fun _ => accepted) (rpcs + 1) = .returned true := by
  induction rpcs with
  | zero => decide +kernel
  | succ rpcs ih =>
      unfold Stream.sendSnapshot
      rw [ih]

def delivery : Conversation (trio "a") SnapshotJson.codec shipment (trio "b") sender where
  hosts
    | 0 => listener
    | _ + 1 => (taking.step (trio "a") SnapshotJson.codec [] .installDecoded).1
  answers := fun _ => accepted
  served := by
    intro rpcs offset sending
    cases rpcs with
    | zero =>
        cases sending
        exact listener_heeds.serves
    | succ rpcs => cases (shipment_accepted rpcs).symm.trans sending

theorem sendSnapshot_returns_delivery : ∃ rpcs acked,
    shipment.sendSnapshot (trio "b") SnapshotJson.codec sender delivery.answers rpcs =
      .returned acked := by
  refine (sendSnapshot_returns delivery (by decide)).mpr ⟨0, fun rpcs _ offset sending => ?_⟩
  cases rpcs with
  | zero =>
      cases sending
      exact listener_heeds
  | succ rpcs => cases (shipment_accepted rpcs).symm.trans sending

/-- A heartbeat whose hard state the follower cannot save. -/
def failing : List (List Fate × Action) :=
  [([], .restart),
   ([.err 0], .appendEntries { term := 1, leaderID := "b", prevLogIndex := 0, prevLogTerm := 0,
                               entries := [], leaderCommit := 0 })]

def failed : Host := Host.after (trio "a") SnapshotJson.codec {} failing

def refusal : InstallSnapshotResponse := { term := 1 }

theorem shipment_refused (rpcs : Nat) : shipment.sendSnapshot (trio "b") SnapshotJson.codec sender
    (fun _ => refusal) rpcs = .sending 0 := by
  induction rpcs with
  | zero => rfl
  | succ rpcs ih =>
      unfold Stream.sendSnapshot
      rw [ih]
      decide +kernel

/-- The follower refuses the only chunk, and `sendSnapshot` sends it again and again. -/
def stalled : Conversation (trio "a") SnapshotJson.codec shipment (trio "b") sender where
  hosts := fun _ => failed
  answers := fun _ => refusal
  served := by
    intro rpcs offset sending
    cases (shipment_refused rpcs).symm.trans sending
    exact .answered failed [] 0 .refl rfl

theorem sendSnapshot_repeats : ∃ p, failed.proc = some p ∧ p.node.storageFatal = true ∧
    Host.Run (trio "a") SnapshotJson.codec (fun _ _ _ => True) {} failed ∧
      stalled.hosts 0 = failed ∧
    sender.role = .leader ∧ sender.currentTerm = shipment.term ∧ 0 < shipment.chunkSize ∧
    ∀ rpcs, shipment.sendSnapshot (trio "b") SnapshotJson.codec sender stalled.answers rpcs =
      .sending 0 :=
  ⟨_, rfl, rfl, Host.run_after fun _ _ _ => trivial, rfl, rfl, rfl, by decide, shipment_refused⟩

end Conversation

end GoRaftKV.Raft
