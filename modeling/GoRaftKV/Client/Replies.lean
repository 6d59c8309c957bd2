import GoRaftKV.Client.Kvctl
import GoRaftKV.Server.Api

/-! The calls of `kvctl`: the request it makes, what `Service` answers, and what the retry loop and
the user get to see of the answer. -/

namespace GoRaftKV.Server

open Storage Raft

/-- What `Service` calls on its node, with what a call leaves behind in the process. -/
structure KVNode (World : Type) where
  propose : Command → World × (ApplyResult × Option NodeError)
  linearizableGet : String → World × Except NodeError (String × Bool)

def leaderHint : NodeError → String × String
  | .notLeader leaderID leaderAddress => (leaderID, leaderAddress)
  | _ => ("", "")

namespace Service

-- `message` is the text of an error.
variable {World : Type} (message : NodeError → String) (node : KVNode World)

def put (req : Api.PutRequest) : World × Api.PutResponse :=
  match node.propose { op := .put, key := req.key, value := req.value } with
  | (world, _, some err) =>
      (world, { error := message err, leaderID := (leaderHint err).1,
                leaderAddress := (leaderHint err).2 })
  | (world, res, none) => (world, { ok := res.ok, error := res.error })

def get (req : Api.GetRequest) : World × Api.GetResponse :=
  match node.linearizableGet req.key with
  | (world, .error err) =>
      (world, { error := message err, leaderID := (leaderHint err).1,
                leaderAddress := (leaderHint err).2 })
  | (world, .ok (value, found)) => (world, { ok := true, found := found, value := value })

def delete (req : Api.DeleteRequest) : World × Api.DeleteResponse :=
  match node.propose { op := .delete, key := req.key } with
  | (world, _, some err) =>
      (world, { error := message err, leaderID := (leaderHint err).1,
                leaderAddress := (leaderHint err).2 })
  | (world, res, none) =>
      (world, { ok := res.ok, found := res.found, previousValue := res.value, error := res.error })

def cas (req : Api.CASRequest) : World × Api.CASResponse :=
  match node.propose { op := .cas, key := req.key, expected := req.expected,
                       value := req.value } with
  | (world, _, some err) =>
      (world, { error := message err, leaderID := (leaderHint err).1,
                leaderAddress := (leaderHint err).2 })
  | (world, res, none) =>
      (world, { ok := res.ok, swapped := res.swapped, found := res.found, currentValue := res.value
                error := res.error })

end Service

end GoRaftKV.Server

namespace GoRaftKV.Client

open Storage Raft Server

/-- The response to a call of `kvctl`. -/
inductive Answer where
  | put (resp : Api.PutResponse)
  | get (resp : Api.GetResponse)
  | delete (resp : Api.DeleteResponse)
  | cas (resp : Api.CASResponse)

/-- The responses of other types, which have no hint, go through no retry loop. -/
def leaderFrom : Answer → Bool × String
  | .put resp => (resp.ok, resp.leaderAddress)
  | .get resp => (resp.ok, resp.leaderAddress)
  | .delete resp => (resp.ok, resp.leaderAddress)
  | .cas resp => (resp.ok, resp.leaderAddress)

def responseError : Answer → String
  | .put resp => resp.error
  | .get resp => resp.error
  | .delete resp => resp.error
  | .cas resp => resp.error

/-- What `kvctl` prints in the end: a line, or an error. `quote` stands for the verb `%q`. -/
def Answer.print (quote : String → String) : Answer → Except String String
  | .put resp => if resp.ok = false then .error resp.error else .ok "OK"
  | .get resp =>
      if resp.ok = false then .error resp.error
      else if resp.found = false then .error "not found"
      else .ok resp.value
  | .delete resp =>
      if resp.ok = false then .error resp.error
      else if resp.found = true then .ok resp.previousValue
      else .ok "OK"
  | .cas resp =>
      if resp.ok = false then .error resp.error
      else if resp.swapped = false then .error ("not swapped current=" ++ quote resp.currentValue)
      else .ok "OK"

/-- The commands of `kvctl` that change the store. -/
inductive Write where
  | put (key value : String)
  | delete (key : String)
  | cas (key expected value : String)

def Write.command : Write → Command
  | .put key value => { op := .put, key := key, value := value }
  | .delete key => { op := .delete, key := key }
  | .cas key expected value => { op := .cas, key := key, expected := expected, value := value }

section

variable {World : Type} (message : NodeError → String) (node : KVNode World)

/-- One call of the retry loop, over a connection to the node. -/
def Write.call : Write → Option (World × Answer)
  | .put key value =>
      (Api.invoke Api.PutRequest.schema Api.PutResponse.schema (Service.put message node)
        { key := key, value := value }).map fun (world, resp) => (world, .put resp)
  | .delete key =>
      (Api.invoke Api.DeleteRequest.schema Api.DeleteResponse.schema (Service.delete message node)
        { key := key }).map fun (world, resp) => (world, .delete resp)
  | .cas key expected value =>
      (Api.invoke Api.CASRequest.schema Api.CASResponse.schema (Service.cas message node)
        { key := key, expected := expected, value := value }).map fun (world, resp) =>
          (world, .cas resp)

def getCall (key : String) : Option (World × Answer) :=
  (Api.invoke Api.GetRequest.schema Api.GetResponse.schema (Service.get message node)
    { key := key }).map fun (world, resp) => (world, .get resp)

/-- An operation that was applied without success says why, and `Propose` returns that as an
error. -/
def Settles : Prop := ∀ command result, (node.propose command).2 = (result, none) →
    result.ok = true ∨ result.error = ""

end

theorem resultFromOutcome_settles {outcome : ApplyOutcome} {result : ApplyResult}
    (settled : resultFromOutcome outcome = (result, none)) :
    result.ok = true ∨ result.error = "" := by
  unfold resultFromOutcome at settled
  split at settled
  · cases settled
  split at settled
  · cases settled
  · rename_i excuse
    cases settled
    cases ok : outcome.result.ok with
    | true => exact Or.inl rfl
    | false => exact Or.inr (by simpa [ok] using excuse)

/-- What the user is told about a write that was applied. -/
def Write.report (quote : String → String) (result : ApplyResult) : Write → Except String String
  | .put _ _ => .ok "OK"
  | .delete _ => .ok (if result.found = true then result.value else "OK")
  | .cas _ _ _ =>
      if result.swapped = false then .error ("not swapped current=" ++ quote result.value)
        else .ok "OK"

/-- The retry loop and the user read the answer as what `Propose` has returned. -/
structure Answer.Tells (answer : Answer) (message : NodeError → String) (quote : String → String)
    (write : Write) (result : ApplyResult) (err : Option NodeError) : Prop where
  hint : leaderFrom answer =
    ((Reply.ofProposal result err).ok, (Reply.ofProposal result err).leaderAddress)
  error : (Reply.ofProposal result err).ok = false →
    responseError answer = ((Reply.ofProposal result err).error.map message).getD ""
  printed : (Reply.ofProposal result err).ok = true → answer.print quote = write.report quote result

variable {World : Type} {message : NodeError → String} {node : KVNode World}

theorem leaderHint_reply (err : NodeError) (result : ApplyResult) :
    (leaderHint err).2 = (Reply.ofProposal result (some err)).leaderAddress ∧
      Reply.ofProposal result (some err) =
        { error := some err, leaderAddress := (leaderHint err).2 } := by
  cases err <;> exact ⟨rfl, rfl⟩

theorem Answer.Tells.refused {answer : Answer} {quote : String → String} {write : Write}
    {result : ApplyResult} {err : NodeError}
    (hint : leaderFrom answer = (false, (leaderHint err).2))
    (error : responseError answer = message err) :
    answer.Tells message quote write result (some err) := by
  obtain ⟨-, reply⟩ := leaderHint_reply err result
  refine ⟨?_, fun _ => ?_, fun ok => ?_⟩
  · rw [hint, reply]
  · rw [error, reply]
    rfl
  · rw [reply] at ok
    cases ok

theorem Answer.Tells.applied {answer : Answer} {quote : String → String} {write : Write}
    {result : ApplyResult} (settled : result.ok = true ∨ result.error = "")
    (hint : leaderFrom answer = (result.ok, "")) (error : responseError answer = result.error)
    (printed : result.ok = true → answer.print quote = write.report quote result) :
    answer.Tells message quote write result none := by
  refine ⟨hint, fun failed => ?_, printed⟩
  rcases settled with ok | silent
  · exact absurd (failed.symm.trans ok) Bool.false_ne_true
  · exact error.trans silent

theorem write_told (settles : Settles node) (write : Write) (quote : String → String) :
    ∃ answer, write.call message node = some ((node.propose write.command).1, answer) ∧
      answer.Tells message quote write (node.propose write.command).2.1
        (node.propose write.command).2.2 := by
  have applied := settles write.command
  cases write with
  | put key value =>
      simp only [Write.call, Api.invoke_eq, Service.put, Write.command] at applied ⊢
      generalize node.propose { op := .put, key := key, value := value } = returned at applied ⊢
      rcases returned with ⟨world, result, none | err⟩
      · refine ⟨_, rfl, .applied (applied result rfl) rfl rfl fun ok => ?_⟩
        have success : result.ok = true := ok
        simp only [Answer.print, success, Bool.true_eq_false, if_false, Write.report]
      · exact ⟨_, rfl, .refused rfl rfl⟩
  | delete key =>
      simp only [Write.call, Api.invoke_eq, Service.delete, Write.command] at applied ⊢
      generalize node.propose { op := .delete, key := key } = returned at applied ⊢
      rcases returned with ⟨world, result, none | err⟩
      · refine ⟨_, rfl, .applied (applied result rfl) rfl rfl fun ok => ?_⟩
        have success : result.ok = true := ok
        simp only [Answer.print, success, Bool.true_eq_false, if_false, Write.report]
        split <;> rfl
      · exact ⟨_, rfl, .refused rfl rfl⟩
  | cas key expected value =>
      simp only [Write.call, Api.invoke_eq, Service.cas, Write.command] at applied ⊢
      generalize node.propose { op := .cas, key := key, expected := expected, value := value } =
        returned at applied ⊢
      rcases returned with ⟨world, result, none | err⟩
      · refine ⟨_, rfl, .applied (applied result rfl) rfl rfl fun ok => ?_⟩
        have success : result.ok = true := ok
        simp only [Answer.print, success, Bool.true_eq_false, if_false, Write.report]
      · exact ⟨_, rfl, .refused rfl rfl⟩

/-- The retry loop and the user read the answer as what `LinearizableGet` has returned. -/
def Answer.Relays (answer : Answer) (message : NodeError → String) (quote : String → String) :
    Except NodeError (String × Bool) → Prop
  | .error err =>
      leaderFrom answer = (false, (leaderHint err).2) ∧ responseError answer = message err
  | .ok (value, found) => leaderFrom answer = (true, "") ∧
      answer.print quote = if found = true then .ok value else .error "not found"

theorem get_told (key : String) (quote : String → String) :
    ∃ answer, getCall message node key = some ((node.linearizableGet key).1, answer) ∧
      answer.Relays message quote (node.linearizableGet key).2 := by
  simp only [getCall, Api.invoke_eq, Service.get]
  generalize node.linearizableGet key = returned
  rcases returned with ⟨world, err | ⟨value, found⟩⟩
  · exact ⟨_, rfl, rfl, rfl⟩
  · refine ⟨_, rfl, rfl, ?_⟩
    cases found <;> rfl

/-- Every call of `kvctl`, over its connection and back, has the node propose the command or read
the key that the user gave, and is told what `Propose` or `LinearizableGet` returned: the retry
loop sees success, the leader's address and the error, and the user the value. -/
theorem calls_told (settles : Settles node) (quote : String → String) :
    (∀ write : Write, ∃ answer, write.call message node = some ((node.propose write.command).1,
      answer) ∧ answer.Tells message quote write (node.propose write.command).2.1
        (node.propose write.command).2.2) ∧
    ∀ key, ∃ answer, getCall message node key = some ((node.linearizableGet key).1, answer) ∧
      answer.Relays message quote (node.linearizableGet key).2 :=
  ⟨fun write => write_told settles write quote, fun key => get_told key quote⟩

/-- A node that applies commands at once, to a store with the key `k`. -/
def lone : KVNode KVMap where
  propose command :=
    ((KVStateMachine.apply (Finmap.singleton "k" "old") command).1,
      resultFromOutcome { result := (KVStateMachine.apply (Finmap.singleton "k" "old") command).2 })
  linearizableGet key :=
    (Finmap.singleton "k" "old", .ok (KVStateMachine.get (Finmap.singleton "k" "old") key))

theorem calls_told_mismatch : ∃ answer, (Write.cas "k" "older" "new").call (fun _ => "") lone =
      some (Finmap.singleton "k" "old", answer) ∧ leaderFrom answer = (true, "") ∧
    answer.print id = .error "not swapped current=old" := by
  have settles : Settles lone := by
    intro command result settled
    simp only [lone] at settled
    exact resultFromOutcome_settles settled
  have applied : lone.propose (Write.cas "k" "older" "new").command =
      (Finmap.singleton "k" "old", { ok := true, found := true, value := "old" }, none) := by
    decide +kernel
  rcases (calls_told settles id).1 (.cas "k" "older" "new") with ⟨answer, call, tells⟩
  rw [applied] at call tells
  exact ⟨answer, call, tells.hint, tells.printed rfl⟩

end GoRaftKV.Client
