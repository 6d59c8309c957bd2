import GoRaftKV.Raft.Cluster

/-! Runs with a record of their events. -/

namespace GoRaftKV.Raft

/-- A run together with its events: `events time` leads from `states time` to the next state. -/
structure Execution (setting : Setting) (allowed : Cluster → Event → Prop) where
  length : Nat
  states : Nat → Cluster
  events : Nat → Event
  begun : states 0 = Cluster.initial
  admitted : ∀ time < length, allowed (states time) (events time)
  taken : ∀ time < length, (states time).step setting (events time) = some (states (time + 1))

namespace Execution

variable {setting : Setting} {allowed : Cluster → Event → Prop}
  (execution : Execution setting allowed) {time : Nat}

theorem run (bound : time ≤ execution.length) :
    Cluster.Run setting allowed Cluster.initial (execution.states time) := by
  induction time with
  | zero => exact execution.begun ▸ .refl
  | succ time ih =>
      exact .tail (ih (Nat.le_of_succ_le bound))
        (.event _ _ (execution.admitted time bound) (execution.taken time bound))

end Execution

def Execution.extend {setting : Setting} {allowed : Cluster → Event → Prop}
    (execution : Execution setting allowed) (event : Event) (next : Cluster)
    (admitted : allowed (execution.states execution.length) event)
    (taken : (execution.states execution.length).step setting event = some next) :
    Execution setting allowed where
  length := execution.length + 1
  states time := if time ≤ execution.length then execution.states time else next
  events time := if time < execution.length then execution.events time else event
  begun := by rw [if_pos (Nat.zero_le _), execution.begun]
  admitted := by
    intro time bound
    rw [if_pos (by omega)]
    split
    · rename_i before
      exact execution.admitted time before
    · rw [show time = execution.length by omega]
      exact admitted
  taken := by
    intro time bound
    rw [if_pos (by omega)]
    split
    · rename_i before
      rw [if_pos (by omega)]
      exact execution.taken time before
    · rw [if_neg (by omega), show time = execution.length by omega]
      exact taken

theorem Execution.exists_of_run {setting : Setting} {allowed : Cluster → Event → Prop} {w : Cluster}
    (run : Cluster.Run setting allowed .initial w) :
    ∃ execution : Execution setting allowed, execution.states execution.length = w := by
  induction run with
  | refl =>
      refine ⟨⟨0, fun _ => .initial, fun _ => .giveUp 0, rfl, ?_, ?_⟩, rfl⟩
      · exact fun time before => absurd before (Nat.not_lt_zero time)
      · exact fun time before => absurd before (Nat.not_lt_zero time)
  | tail _ step ih =>
      rcases ih with ⟨execution, rfl⟩
      rcases step with ⟨event, next, admitted, taken⟩
      refine ⟨execution.extend event _ admitted taken, ?_⟩
      exact if_neg (Nat.not_succ_le_self _)

namespace Cluster

variable {setting : Setting} {allowed : Cluster → Event → Prop}
  [∀ w event, Decidable (allowed w event)] {w : Cluster}

theorem play_append {front back : List Event} : play setting allowed w (front ++ back) =
    (play setting allowed w front).bind fun mid => play setting allowed mid back := by
  induction front generalizing w with
  | nil => rfl
  | cons event front ih =>
      simp only [List.cons_append, play]
      split
      · cases w.step setting event with
        | none => rfl
        | some next => exact ih
      · rfl

theorem play_take {events : List Event} (played : (play setting allowed w events).isSome)
    {time : Nat} {event : Event} (found : events[time]? = some event) :
    ∃ mid next, play setting allowed w (events.take time) = some mid ∧
      allowed mid event ∧ mid.step setting event = some next ∧
      play setting allowed w (events.take (time + 1)) = some next := by
  have whole : events = events.take time ++ event :: events.drop (time + 1) := by
    rw [List.getElem?_eq_some_iff] at found
    rcases found with ⟨inside, rfl⟩
    rw [List.getElem_cons_drop, List.take_append_drop]
  have longer : events.take (time + 1) = events.take time ++ [event] := by
    rw [List.take_add_one, found]
    rfl
  rw [whole, play_append] at played
  rw [longer, play_append]
  cases reached : play setting allowed w (events.take time) with
  | none =>
      rw [reached] at played
      cases played
  | some mid =>
      rw [reached] at played
      simp only [Option.bind_some, play] at played ⊢
      split at played
      · rename_i admitted
        cases taken : mid.step setting event with
        | none =>
            rw [taken] at played
            cases played
        | some next => exact ⟨mid, next, rfl, admitted, taken, by simp [admitted]⟩
      · cases played

def execution (setting : Setting) (allowed : Cluster → Event → Prop)
    [∀ w event, Decidable (allowed w event)] (events : List Event)
    (played : (play setting allowed initial events).isSome) : Execution setting allowed where
  length := events.length
  states := fun time => (play setting allowed initial (events.take time)).getD initial
  events := fun time => (events[time]?).getD (.giveUp 0)
  begun := by simp [play]
  admitted := by
    intro time before
    have found := List.getElem?_eq_getElem before
    rcases play_take played found with ⟨mid, next, reached, admitted, -, -⟩
    rw [reached, found]
    exact admitted
  taken := by
    intro time before
    have found := List.getElem?_eq_getElem before
    rcases play_take played found with ⟨mid, next, reached, -, taken, after⟩
    rw [reached, after, found]
    exact taken

end Cluster

end GoRaftKV.Raft
