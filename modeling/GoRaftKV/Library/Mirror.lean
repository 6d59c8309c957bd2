import GoRaftKV.Library.Program

/-! Programs that run on a medium and on a model of it. -/

namespace GoRaftKV.Library

/-- The same happens to a call; only the part of its effect that is done differs. -/
inductive Fate.Like : Fate → Fate → Prop
  | ok : Like .ok .ok
  | err (reached other : Nat) : Like (.err reached) (.err other)
  | crash (reached other : Nat) : Like (.crash reached) (.crash other)

/-- Nothing happens to the calls under `echo` that does not happen to one under `fates`. -/
def Echoes (fates echo : List Fate) : Prop := ∀ fate ∈ echo, ∃ origin ∈ fates, origin.Like fate

theorem Fate.Like.refl (fate : Fate) : fate.Like fate := by
  cases fate with
  | ok => exact .ok
  | err reached => exact .err reached reached
  | crash reached => exact .crash reached reached

namespace Echoes

variable {fates echo : List Fate} {fate origin : Fate}

theorem refl (fates : List Fate) : Echoes fates fates :=
  fun fate member => ⟨fate, member, .refl fate⟩

theorem nil : Echoes fates [] := fun _ member => absurd member List.not_mem_nil

theorem cons (first : origin.Like fate) (rest : Echoes fates echo) :
    Echoes (origin :: fates) (fate :: echo) := by
  intro other member
  rcases List.mem_cons.mp member with rfl | later
  · exact ⟨origin, List.mem_cons_self, first⟩
  · rcases rest other later with ⟨source, present, like⟩
    exact ⟨source, List.mem_cons_of_mem _ present, like⟩

theorem skip (rest : Echoes fates echo) : Echoes (origin :: fates) echo := by
  intro other member
  rcases rest other member with ⟨source, present, like⟩
  exact ⟨source, List.mem_cons_of_mem _ present, like⟩

theorem of_nil (echoes : Echoes [] echo) : echo = [] := by
  apply List.eq_nil_iff_forall_not_mem.mpr
  intro fate member
  rcases echoes fate member with ⟨source, present, -⟩
  cases present

theorem errorless (echoes : Echoes fates echo) (errorless : Program.Errorless fates) :
    Program.Errorless echo := by
  intro fate member
  rcases echoes fate member with ⟨source, present, like⟩
  have calm := errorless source present
  cases like with
  | ok => rfl
  | err reached other => cases calm
  | crash reached other => rfl

end Echoes

variable {Op α β C A : Type} {fragile : Op → Bool}

/-- Both runs return the same, or both stop. `related` is about the media they leave; the flag says
whether the one below is intact. -/
inductive Outcome.Matches (related : Bool → C → A → Prop) (post : α → Bool → Prop) :
    Outcome α C → Outcome α A → Prop
  | done {value : α} {medium : C} {model : A} (intact : Bool) (holds : post value intact)
      (same : related intact medium model) : Matches related post (.done value medium) (.done value
        model)
  | crashed {medium : C} {model : A} (same : related false medium model) :
      Matches related post (.crashed medium) (.crashed model)

/-- `model` can follow `device`. A fragile call may only be made on an intact medium, and one that
is not completed may leave it damaged. -/
structure Mirror (device : Device Op C) (model : Device Op A) (fragile : Op → Bool)
    (related : Bool → C → A → Prop) : Prop where
  weaken : ∀ {intact : Bool} {c : C} {a : A}, related intact c a → related false c a
  complete : ∀ (op : Op) {intact : Bool} {c : C} {a : A}, (fragile op = true → intact = true) →
    related intact c a → related intact (device.complete op c) (model.complete op a)
  torn : ∀ (op : Op) (reached : Nat) {intact : Bool} {c : C} {a : A},
    (fragile op = true → intact = true) → related intact c a → ∃ other,
    related (intact && !fragile op) (device.torn op reached c) (model.torn op other a)

def Outcome.map (f : α → β) : Outcome α C → Outcome β C
  | .done value medium => .done (f value) medium
  | .crashed medium => .crashed medium

namespace Program

theorem exec_map (f : α → β) (device : Device Op C) (program : Program Op α) (medium : C)
    (fates : List Fate) :
    (f <$> program).exec device medium fates = (program.exec device medium fates).map f := by
  induction program generalizing medium fates with
  | ret value => rfl
  | call op next ih =>
      cases fates with
      | nil => exact ih true _ []
      | cons fate fates =>
          cases fate with
          | ok => exact ih true _ fates
          | err reached => exact ih false _ fates
          | crash reached => rfl

/-- The program makes no fragile call after one that has failed, nor at all unless the medium is
`intact` when it starts. `post` is about what it returns and whether the medium is then intact. -/
def Careful (fragile : Op → Bool) (post : α → Bool → Prop) : Program Op α → Bool → Prop
  | ret value, intact => post value intact
  | call op next, intact =>
      (fragile op = true → intact = true) ∧ (next true).Careful fragile post intact ∧
      (next false).Careful fragile post (intact && !fragile op)

theorem Careful.mono {post weaker : α → Bool → Prop} {program : Program Op α} {intact : Bool}
    (careful : program.Careful fragile post intact)
    (implies : ∀ value intact, post value intact → weaker value intact) :
    program.Careful fragile weaker intact := by
  induction program generalizing intact with
  | ret value => exact implies value intact careful
  | call op next ih => exact ⟨careful.1, ih true careful.2.1, ih false careful.2.2⟩

theorem Careful.bind {post : β → Bool → Prop} {program : Program Op α} {f : α → Program Op β}
    {intact : Bool}
    (careful : program.Careful fragile (fun value intact => (f value).Careful fragile post intact)
    intact) :
    (program >>= f).Careful fragile post intact := by
  induction program generalizing intact with
  | ret value => exact careful
  | call op next ih => exact ⟨careful.1, ih true careful.2.1, ih false careful.2.2⟩

theorem Careful.map {post : β → Bool → Prop} {program : Program Op α} {f : α → β} {intact : Bool}
    (careful : program.Careful fragile (fun value => post (f value)) intact) :
    (f <$> program).Careful fragile post intact := Careful.bind careful

theorem Does.careful {post : α → Bool → Prop} {program : Program Op α} {intact : Bool}
    (does : program.Does (fun op => fragile op = false) fun value => post value intact) :
    program.Careful fragile post intact := by
  induction program with
  | ret value => exact does
  | call op next ih =>
      have sturdy : (intact && !fragile op) = intact := by simp [does.1]
      refine ⟨fun delicate => ?_, ih true (does.2 true), ?_⟩
      · rw [does.1] at delicate
        cases delicate
      · rw [sturdy]
        exact ih false (does.2 false)

theorem Does.and {may : Op → Prop} {first second : α → Prop} {program : Program Op α}
    (does : program.Does may first) (every : program.All second) :
    program.Does may fun value => first value ∧ second value := by
  induction program with
  | ret value => exact ⟨does, every⟩
  | call op next ih => exact ⟨does.1, fun answer => ih answer (does.2 answer) (every answer)⟩

end Program

/-- Whatever happens to a careful program on the medium can happen to it on the model. -/
theorem Mirror.exec {device : Device Op C} {model : Device Op A} {related : Bool → C → A → Prop}
    (mirror : Mirror device model fragile related) {post : α → Bool → Prop} {program : Program Op α}
    {intact : Bool} (careful : program.Careful fragile post intact) {c : C} {a : A}
    (same : related intact c a) (fates : List Fate) :
    ∃ echo, Echoes fates echo ∧
      Outcome.Matches related post (program.exec device c fates) (program.exec model a echo) := by
  induction program generalizing intact c a fates with
  | ret value => exact ⟨[], Echoes.nil, .done intact careful same⟩
  | call op next ih =>
      have done := mirror.complete op careful.1 same
      cases fates with
      | nil =>
          rcases ih true careful.2.1 done [] with ⟨echo, echoes, outcome⟩
          rw [echoes.of_nil] at outcome
          exact ⟨[], Echoes.nil, outcome⟩
      | cons fate fates =>
          cases fate with
          | ok =>
              rcases ih true careful.2.1 done fates with ⟨echo, echoes, outcome⟩
              exact ⟨.ok :: echo, echoes.cons .ok, outcome⟩
          | err reached =>
              rcases mirror.torn op reached careful.1 same with ⟨other, torn⟩
              rcases ih false careful.2.2 torn fates with ⟨echo, echoes, outcome⟩
              exact ⟨.err other :: echo, echoes.cons (.err reached other), outcome⟩
          | crash reached =>
              rcases mirror.torn op reached careful.1 same with ⟨other, torn⟩
              exact ⟨[.crash other], Echoes.nil.cons (.crash reached other),
                .crashed (mirror.weaken torn)⟩

end GoRaftKV.Library
