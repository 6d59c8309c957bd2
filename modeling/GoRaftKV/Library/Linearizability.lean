import Mathlib.Data.List.Basic
import Mathlib.Data.List.Pairwise
import Mathlib.Data.List.Range
import Mathlib.Order.Nat

/-! Linearizability of the calls to a shared object. Calls that have each been given a place are
linearizable as soon as the places respect real time and every place is served by the sequential
object. -/

namespace GoRaftKV.Library

/-- A sequential object: its first state, and what an input makes of a state and answers. -/
structure Object (S I O : Type) where
  initial : S
  step : S → I → S × O

/-- A call is named by the time at which it was invoked. `returned call time output` says that it
has returned `output` at `time`. -/
structure History (I O : Type) where
  input : ℕ → Option I
  returned : ℕ → ℕ → O → Prop

variable {S I O : Type}

def History.Precedes (history : History I O) (first second : ℕ) : Prop :=
  ∃ time output, history.returned first time output ∧ time < second

namespace Object

variable (object : Object S I O) (history : History I O)

def perform (state : S) (call : ℕ) : S :=
  (history.input call).elim state fun input => (object.step state input).1

/-- The state after the calls of `order`, one at a time. -/
def after (order : List ℕ) : S := order.foldl (object.perform history) object.initial

/-- `order` holds every call that has returned, and perhaps some of those that have not. One at a
time in this order the calls answer what they have returned, and none comes before a call that
preceded it. -/
structure Linearizes (order : List ℕ) : Prop where
  nodup : order.Nodup
  invoked : ∀ call ∈ order, (history.input call).isSome
  complete : ∀ call time output, history.returned call time output → call ∈ order
  legal : ∀ front call back input, order = front ++ call :: back → history.input call = some input →
    ∀ time output, history.returned call time output →
      output = (object.step (object.after history front) input).2
  ordered : order.Pairwise fun first second => ¬ history.Precedes second first

/-- In `state` the call leads to `next`, and if it has returned it has returned the object's
answer. -/
def Answers (state : S) (call : ℕ) (next : S) : Prop :=
  ∃ input, history.input call = some input ∧ (object.step state input).1 = next ∧
    ∀ time output, history.returned call time output → output = (object.step state input).2

def Runs : S → List ℕ → S → Prop
  | state, [], final => state = final
  | state, call :: calls, final =>
      ∃ next, object.Answers history state call next ∧ Runs next calls final

section Runs

variable {object history} {state final : S} {front back calls : List ℕ}

theorem runs_append : object.Runs history state (front ++ back) final ↔
    ∃ middle, object.Runs history state front middle ∧ object.Runs history middle back final := by
  induction front generalizing state with
  | nil => simp [Runs]
  | cons call front ih =>
      simp only [List.cons_append, Runs, ih]
      constructor
      · rintro ⟨next, answers, middle, first, second⟩
        exact ⟨middle, ⟨next, answers, first⟩, second⟩
      · rintro ⟨middle, ⟨next, answers, first⟩, second⟩
        exact ⟨next, answers, middle, first, second⟩

theorem Runs.foldl (runs : object.Runs history state calls final) :
    calls.foldl (object.perform history) state = final := by
  induction calls generalizing state with
  | nil => exact runs
  | cons call calls ih =>
      rcases runs with ⟨next, ⟨input, invoked, leads, -⟩, rest⟩
      have performed : object.perform history state call = next := by
        rw [perform, invoked]
        exact leads
      rw [List.foldl_cons, performed]
      exact ih rest

theorem runs_same (same : ∀ call ∈ calls, object.Answers history state call state) :
    object.Runs history state calls state := by
  induction calls with
  | nil => rfl
  | cons call calls ih =>
      exact ⟨state, same call List.mem_cons_self, ih fun other member =>
        same other (List.mem_cons_of_mem _ member)⟩

theorem Runs.invoked (runs : object.Runs history state calls final) {call : ℕ}
    (member : call ∈ calls) :
    (history.input call).isSome := by
  induction calls generalizing state with
  | nil => cases member
  | cons head calls ih =>
      rcases runs with ⟨next, ⟨input, invoked, -⟩, rest⟩
      rcases List.mem_cons.mp member with rfl | later
      · rw [invoked]
        rfl
      · exact ih rest later

theorem Runs.legal (runs : object.Runs history object.initial (front ++ calls) final) {call : ℕ}
    (head : calls.head? = some call) {input : I} (invoked : history.input call = some input)
    {time : ℕ} {output : O} (returned : history.returned call time output) :
    output = (object.step (object.after history front) input).2 := by
  cases calls with
  | nil => cases head
  | cons first rest =>
      cases head
      rcases runs_append.mp runs with ⟨middle, before, next, ⟨input', same, -, answer⟩, -⟩
      cases invoked.symm.trans same
      rw [after, before.foldl]
      exact answer time output returned

end Runs

end Object

/-- The calls place by place, those of one place in the order of their invocation. -/
def arranged (calls : List ℕ) (place : ℕ → ℕ) (count : ℕ) : List ℕ :=
  (List.range count).flatMap fun position => calls.filter fun call => place call = position

section Arranged

variable {calls : List ℕ} {place : ℕ → ℕ} {count : ℕ}

theorem mem_arranged {call : ℕ} :
    call ∈ arranged calls place count ↔ call ∈ calls ∧ place call < count := by
  simp only [arranged, List.mem_flatMap, List.mem_range, List.mem_filter, decide_eq_true_eq]
  constructor
  · rintro ⟨position, bound, member, rfl⟩
    exact ⟨member, bound⟩
  · rintro ⟨member, bound⟩
    exact ⟨place call, bound, member, rfl⟩

theorem arranged_succ : arranged calls place (count + 1) =
    arranged calls place count ++ calls.filter fun call => place call = count := by
  simp [arranged, List.range_succ, List.flatMap_append]

theorem filter_place {call position : ℕ} (sorted : calls.Pairwise (· < ·)) (member : call ∈ calls)
    (here : place call = position)
    (alone : ∀ other ∈ calls, place other = position → other = call) :
    (calls.filter fun other => place other = position) = [call] := by
  have present : call ∈ calls.filter fun other => place other = position :=
    List.mem_filter.mpr ⟨member, decide_eq_true here⟩
  have same : ∀ other ∈ calls.filter fun other => place other = position, other = call := by
    intro other chosen
    rcases List.mem_filter.mp chosen with ⟨known, there⟩
    exact alone other known (of_decide_eq_true there)
  have increasing := sorted.filter fun other => place other = position
  generalize calls.filter (fun other => place other = position) = chosen at present same increasing
  rcases chosen with _ | ⟨first, _ | ⟨second, rest⟩⟩
  · cases present
  · rw [same first List.mem_cons_self]
  · have before := (List.pairwise_cons.mp increasing).1 second List.mem_cons_self
    rw [same first List.mem_cons_self,
      same second (List.mem_cons_of_mem _ List.mem_cons_self)] at before
    exact absurd before (lt_irrefl call)

theorem pairwise_arranged (sorted : calls.Pairwise (· < ·)) :
    (arranged calls place count).Pairwise fun first second =>
      place first < place second ∨ (place first = place second ∧ first < second) := by
  rw [arranged, List.pairwise_flatMap]
  constructor
  · intro position _
    refine (sorted.filter _).imp_of_mem ?_
    intro first second left right earlier
    have here := (List.mem_filter.mp left).2
    have there := (List.mem_filter.mp right).2
    simp only [decide_eq_true_eq] at here there
    exact Or.inr ⟨here.trans there.symm, earlier⟩
  · refine List.pairwise_lt_range.imp ?_
    intro position later before first left second right
    have here := (List.mem_filter.mp left).2
    have there := (List.mem_filter.mp right).2
    simp only [decide_eq_true_eq] at here there
    exact Or.inl (by omega)

end Arranged

/-- An account of a history: `states` are the states between the places. -/
structure Account (object : Object S I O) (history : History I O) where
  calls : List ℕ
  place : ℕ → ℕ
  count : ℕ
  states : ℕ → S
  sorted : calls.Pairwise (· < ·)
  bounded : ∀ call ∈ calls, place call < count
  complete : ∀ call time output, history.returned call time output → call ∈ calls ∧ call ≤ time
  begins : states 0 = object.initial
  served : ∀ position < count,
    (states (position + 1) = states position ∧
      ∀ call ∈ calls, place call = position →
        object.Answers history (states position) call (states position)) ∨
    ∃ call ∈ calls, place call = position ∧
      (∀ other ∈ calls, place other = position → other = call) ∧
      object.Answers history (states position) call (states (position + 1))
  respects : ∀ first ∈ calls, ∀ second ∈ calls, history.Precedes first second →
    place first ≤ place second

namespace Account

variable {object : Object S I O} {history : History I O} (account : Account object history)

theorem runs {count : ℕ} (bound : count ≤ account.count) : object.Runs history object.initial
    (arranged account.calls account.place count) (account.states count) := by
  induction count with
  | zero => exact account.begins.symm
  | succ count ih =>
      rw [arranged_succ, Object.runs_append]
      refine ⟨account.states count, ih (Nat.le_of_succ_le bound), ?_⟩
      rcases account.served count bound with ⟨same, queries⟩ | ⟨call, member, here, alone, answers⟩
      · rw [same]
        apply Object.runs_same
        intro call member
        rcases List.mem_filter.mp member with ⟨placed, here⟩
        exact queries call placed (of_decide_eq_true here)
      · rw [filter_place account.sorted member here alone]
        exact ⟨_, answers, rfl⟩

/-- The calls of an account, place by place, are an order that explains the history. -/
theorem linearizes :
    object.Linearizes history (arranged account.calls account.place account.count) := by
  have runs := account.runs le_rfl
  have order : (arranged account.calls account.place account.count).Pairwise _ :=
    pairwise_arranged account.sorted
  refine ⟨?_, fun call => runs.invoked, ?_, ?_, ?_⟩
  · refine order.imp ?_
    rintro first second (earlier | ⟨-, earlier⟩) rfl
    · exact lt_irrefl _ earlier
    · exact lt_irrefl _ earlier
  · intro call time output returned
    have placed := (account.complete call time output returned).1
    exact mem_arranged.mpr ⟨placed, account.bounded call placed⟩
  · intro front call back input split invoked time output returned
    rw [split] at runs
    exact runs.legal rfl invoked returned
  · refine order.imp_of_mem ?_
    rintro first second left right order ⟨time, output, returned, before⟩
    have placed := account.respects second (mem_arranged.mp right).1 first (mem_arranged.mp left).1
      ⟨time, output, returned, before⟩
    have begun := (account.complete second time output returned).2
    omega

end Account

end GoRaftKV.Library
