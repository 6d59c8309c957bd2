import Mathlib.Logic.Relation
import Mathlib.Data.Nat.Init
import Mathlib.Order.Nat

/-! A run of a system next to the growing abstract state that it realizes, time by time. -/

namespace GoRaftKV.Library

structure Timeline {S A : Type} (step : S → S → Prop) (realizes : S → A → Prop)
    (grows : A → A → Prop) where
  length : ℕ
  states : ℕ → S
  ideals : ℕ → A
  steps : ∀ time < length, step (states time) (states (time + 1))
  realized : ∀ time ≤ length, realizes (states time) (ideals time)
  grown : ∀ time < length, grows (ideals time) (ideals (time + 1))

namespace Timeline

variable {S A : Type} {step : S → S → Prop} {realizes : S → A → Prop} {grows : A → A → Prop}

def start {state : S} {ideal : A} (realized : realizes state ideal) :
    Timeline step realizes grows where
  length := 0
  states := fun _ => state
  ideals := fun _ => ideal
  steps := fun time before => absurd before (Nat.not_lt_zero time)
  realized := fun _ _ => realized
  grown := fun time before => absurd before (Nat.not_lt_zero time)

def extend (line : Timeline step realizes grows) {state : S} {ideal : A}
    (taken : step (line.states line.length) state) (realized : realizes state ideal)
    (more : grows (line.ideals line.length) ideal) : Timeline step realizes grows where
  length := line.length + 1
  states := fun time => if time ≤ line.length then line.states time else state
  ideals := fun time => if time ≤ line.length then line.ideals time else ideal
  steps := by
    intro time before
    rcases (Nat.lt_succ_iff.mp before).eq_or_lt with rfl | earlier
    · rw [if_pos le_rfl, if_neg (Nat.not_succ_le_self _)]
      exact taken
    · rw [if_pos earlier.le, if_pos (Nat.succ_le_of_lt earlier)]
      exact line.steps time earlier
  realized := by
    intro time _
    split
    · exact line.realized time ‹_›
    · exact realized
  grown := by
    intro time before
    rcases (Nat.lt_succ_iff.mp before).eq_or_lt with rfl | earlier
    · rw [if_pos le_rfl, if_neg (Nat.not_succ_le_self _)]
      exact more
    · rw [if_pos earlier.le, if_pos (Nat.succ_le_of_lt earlier)]
      exact line.grown time earlier

/-- If every step is matched by growth of the abstract state, every run has a timeline. -/
theorem exists_of_run
    (simulates : ∀ state next ideal, realizes state ideal → step state next →
      ∃ more, grows ideal more ∧ realizes next more)
    {first final : S} {ideal : A} (begins : realizes first ideal)
    (run : Relation.ReflTransGen step first final) :
    ∃ line : Timeline step realizes grows, line.states 0 = first ∧
      line.states line.length = final := by
  induction run with
  | refl => exact ⟨start begins, rfl, rfl⟩
  | @tail state next _ taken ih =>
      rcases ih with ⟨line, begun, reached⟩
      rw [← reached] at taken
      rcases simulates _ next _ (line.realized _ le_rfl) taken with ⟨more, growth, realized⟩
      refine ⟨line.extend taken realized growth, ?_, ?_⟩
      · simp [extend, begun]
      · simp only [extend, if_neg (Nat.not_succ_le_self line.length)]

theorem exists_along
    (simulates : ∀ state next ideal, realizes state ideal → step state next →
      ∃ more, grows ideal more ∧ realizes next more)
    {states : ℕ → S} {length : ℕ} {ideal : A} (begins : realizes (states 0) ideal)
    (steps : ∀ time < length, step (states time) (states (time + 1))) :
    ∃ ideals : ℕ → A, ideals 0 = ideal ∧ (∀ time ≤ length, realizes (states time) (ideals time)) ∧
      ∀ time < length, grows (ideals time) (ideals (time + 1)) := by
  induction length with
  | zero =>
      refine ⟨fun _ => ideal, rfl, fun time bound => ?_, fun time before =>
        absurd before (Nat.not_lt_zero time)⟩
      rw [Nat.le_zero.mp bound]
      exact begins
  | succ length ih =>
      rcases ih fun time before => steps time (before.trans (Nat.lt_succ_self length)) with
        ⟨ideals, begun, realized, grown⟩
      rcases simulates _ _ _ (realized length le_rfl) (steps length (Nat.lt_succ_self length)) with
        ⟨more, growth, reached⟩
      refine ⟨fun time => if time ≤ length then ideals time else more,
        (if_pos (Nat.zero_le length)).trans begun, ?_, ?_⟩
      · intro time bound
        dsimp only
        rcases bound.eq_or_lt with rfl | before
        · rw [if_neg (Nat.not_succ_le_self length)]
          exact reached
        · rw [if_pos (Nat.lt_succ_iff.mp before)]
          exact realized time (Nat.lt_succ_iff.mp before)
      · intro time before
        dsimp only
        rcases (Nat.lt_succ_iff.mp before).eq_or_lt with rfl | earlier
        · rw [if_pos le_rfl, if_neg (Nat.not_succ_le_self time)]
          exact growth
        · rw [if_pos earlier.le, if_pos (Nat.succ_le_of_lt earlier)]
          exact grown time earlier

variable (line : Timeline step realizes grows)

theorem run {time : ℕ} (bound : time ≤ line.length) :
    Relation.ReflTransGen step (line.states 0) (line.states time) := by
  induction time with
  | zero => exact .refl
  | succ time ih => exact .tail (ih (Nat.le_of_succ_le bound)) (line.steps time bound)

theorem mono (refl : ∀ ideal, grows ideal ideal)
    (trans : ∀ {first second third}, grows first second → grows second third → grows first third)
    {early late : ℕ} (order : early ≤ late) (bound : late ≤ line.length) :
    grows (line.ideals early) (line.ideals late) := by
  induction late, order using Nat.le_induction with
  | base => exact refl _
  | succ late _ ih => exact trans (ih (Nat.le_of_succ_le bound)) (line.grown late bound)

end Timeline

end GoRaftKV.Library
