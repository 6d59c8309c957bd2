import Mathlib.Logic.Basic

namespace GoRaftKV.Library

/-- A computation whose only effects are calls to a medium. The continuation receives `true`
when the call reports success and `false` when it reports an error. -/
inductive Program (Op α : Type) where
  | ret (value : α)
  | call (op : Op) (next : Bool → Program Op α)

/-- What the environment decides about one call. The number says how much of the call's effect
reaches the medium before the error is reported or the machine stops. -/
inductive Fate where
  | ok
  | err (reached : Nat)
  | crash (reached : Nat)
  deriving DecidableEq, Repr

def Fate.fails : Fate → Bool
  | .err _ => true
  | _ => false

/-- The machine stops within the call. -/
def Fate.stops : Fate → Bool
  | .crash _ => true
  | _ => false

/-- Not an error that leaves a part of its effect behind. -/
def Fate.traceless : Fate → Bool
  | .err reached => reached = 0
  | _ => true

inductive Outcome (α D : Type) where
  | done (value : α) (medium : D)
  | crashed (medium : D)
  deriving DecidableEq

def Outcome.medium {α D : Type} : Outcome α D → D
  | .done _ medium => medium
  | .crashed medium => medium

/-- The outcome of a run meets a postcondition and a crash condition. -/
def Outcome.Meets {α D : Type} (post : α → D → Prop) (crash : D → Prop) : Outcome α D → Prop
  | .done value medium => post value medium
  | .crashed medium => crash medium

/-- The medium: a complete effect for each operation, and its partial effects. -/
structure Device (Op D : Type) where
  complete : Op → D → D
  torn : Op → Nat → D → D
  torn_zero : ∀ op medium, torn op 0 medium = medium

namespace Program

variable {Op α β D : Type}

def bind : Program Op α → (α → Program Op β) → Program Op β
  | ret value, f => f value
  | call op next, f => call op (fun answer => (next answer).bind f)

def perform (op : Op) : Program Op Bool := call op ret

instance : Monad (Program Op) where
  pure := ret
  bind := bind

@[simp] theorem pure_eq (value : α) : (pure value : Program Op α) = ret value := rfl

@[simp] theorem ret_bind (value : α) (f : α → Program Op β) :
    ((ret value : Program Op α) >>= f) = f value := rfl

@[simp] theorem call_bind (op : Op) (next : Bool → Program Op α) (f : α → Program Op β) :
    (call op next >>= f) = call op (fun answer => next answer >>= f) := rfl

@[simp] theorem perform_bind (op : Op) (f : Bool → Program Op β) : (perform op >>= f) = call op f :=
  rfl

/-- Runs a program against a medium. Calls beyond the listed fates succeed. -/
def exec (device : Device Op D) : Program Op α → D → List Fate → Outcome α D
  | ret value, medium, _ => .done value medium
  | call op next, medium, [] => (next true).exec device (device.complete op medium) []
  | call op next, medium, .ok :: fates => (next true).exec device (device.complete op medium) fates
  | call op next, medium, .err reached :: fates =>
      (next false).exec device (device.torn op reached medium) fates
  | call op _, medium, .crash reached :: _ => .crashed (device.torn op reached medium)

/-- Weakest precondition for calls that succeed or stop the machine: `post` holds of the result, and
`crash` of the medium at every point where the machine may stop. -/
def wp (device : Device Op D) (post : α → D → Prop) (crash : D → Prop) : Program Op α → D → Prop
  | ret value, medium => post value medium
  | call op next, medium =>
      (next true).wp device post crash (device.complete op medium) ∧
      ∀ reached, crash (device.torn op reached medium)

/-- As `wp`, for calls that may also fail without leaving a trace. -/
def wpFaulty (device : Device Op D) (post : α → D → Prop) (crash : D → Prop) :
    Program Op α → D → Prop
  | ret value, medium => post value medium
  | call op next, medium =>
      (next true).wpFaulty device post crash (device.complete op medium) ∧
      (next false).wpFaulty device post crash medium ∧
      ∀ reached, crash (device.torn op reached medium)

/-- What the program returns when every call succeeds. -/
def value : Program Op α → α
  | ret value => value
  | call _ next => (next true).value

/-- Every value the program can return satisfies `post`, whatever the calls answer. -/
def All (post : α → Prop) : Program Op α → Prop
  | ret value => post value
  | call _ next => ∀ answer, (next answer).All post

/-- Every call the program can make satisfies `may` and every value it can return satisfies `post`,
whatever the calls answer. -/
def Does (may : Op → Prop) (post : α → Prop) : Program Op α → Prop
  | ret value => post value
  | call op next => may op ∧ ∀ answer, (next answer).Does may post

/-- Every way the program can end on this medium, with calls that succeed or fail, satisfies
`post`. -/
def Ends (device : Device Op D) (post : α → D → Prop) : Program Op α → D → Prop
  | ret value, medium => post value medium
  | call op next, medium =>
      (next true).Ends device post (device.complete op medium) ∧
      ∀ reached, (next false).Ends device post (device.torn op reached medium)

/-- The calls of a run with their answers, up to the one that stops the machine. -/
def trace : Program Op α → List Fate → List (Op × Bool)
  | ret _, _ => []
  | call op next, [] => (op, true) :: (next true).trace []
  | call op next, .ok :: fates => (op, true) :: (next true).trace fates
  | call op next, .err _ :: fates => (op, false) :: (next false).trace fates
  | call _ _, .crash _ :: _ => []

/-- Every value the program can return satisfies `post` together with the calls that led to it. -/
def Traces (post : List (Op × Bool) → α → Prop) : Program Op α → Prop
  | ret value => post [] value
  | call op next => ∀ answer, (next answer).Traces fun calls => post ((op, answer) :: calls)

def Errorless (fates : List Fate) : Prop := ∀ fate ∈ fates, fate.fails = false

instance (fates : List Fate) : Decidable (Errorless fates) :=
  inferInstanceAs (Decidable (∀ fate ∈ fates, fate.fails = false))

def Traceless (fates : List Fate) : Prop := ∀ fate ∈ fates, fate.traceless = true

instance (fates : List Fate) : Decidable (Traceless fates) :=
  inferInstanceAs (Decidable (∀ fate ∈ fates, fate.traceless = true))

variable {device : Device Op D} {post : α → D → Prop} {crash : D → Prop}

@[simp] theorem wp_ret (value : α) (medium : D) :
    (ret value : Program Op α).wp device post crash medium ↔ post value medium := Iff.rfl

theorem wp_call (op : Op) (next : Bool → Program Op α) (medium : D)
    (success : (next true).wp device post crash (device.complete op medium))
    (stop : ∀ reached, crash (device.torn op reached medium)) :
    (call op next).wp device post crash medium := ⟨success, stop⟩

theorem wp_mono {post' : α → D → Prop} {crash' : D → Prop} (program : Program Op α) (medium : D)
    (weaker : ∀ value medium, post value medium → post' value medium)
    (weakerCrash : ∀ medium, crash medium → crash' medium)
    (holds : program.wp device post crash medium) :
    program.wp device post' crash' medium := by
  induction program generalizing medium with
  | ret value => exact weaker value medium holds
  | call op next ih =>
      exact ⟨ih true _ holds.1, fun reached => weakerCrash _ (holds.2 reached)⟩

theorem wp_bind {post : β → D → Prop} (program : Program Op α) (f : α → Program Op β) (medium : D)
    (holds : program.wp device
      (fun value medium => (f value).wp device post crash medium) crash medium) :
    (program >>= f).wp device post crash medium := by
  induction program generalizing medium with
  | ret value => exact holds
  | call op next ih => exact ⟨ih true _ holds.1, holds.2⟩

theorem wp_and {post' : α → D → Prop} {crash' : D → Prop} {program : Program Op α} {medium : D}
    (first : program.wp device post crash medium) (second : program.wp device post' crash' medium) :
    program.wp device (fun value medium => post value medium ∧ post' value medium)
      (fun medium => crash medium ∧ crash' medium) medium := by
  induction program generalizing medium with
  | ret value => exact ⟨first, second⟩
  | call op next ih =>
      exact ⟨ih true first.1 second.1, fun reached => ⟨first.2 reached, second.2 reached⟩⟩

theorem wp_exec (program : Program Op α) (medium : D) (fates : List Fate)
    (holds : program.wp device post crash medium) (errorless : Errorless fates) :
    (program.exec device medium fates).Meets post crash := by
  induction program generalizing medium fates with
  | ret value => exact holds
  | call op next ih =>
      cases fates with
      | nil => exact ih true _ [] holds.1 errorless
      | cons fate fates =>
          have rest : Errorless fates :=
            fun other member => errorless other (List.mem_cons_of_mem _ member)
          cases fate with
          | ok => exact ih true _ fates holds.1 rest
          | err reached => cases errorless (.err reached) List.mem_cons_self
          | crash reached => exact holds.2 reached

theorem exec_ok (program : Program Op α) (medium : D) {fates : List Fate}
    (completes : ∀ fate ∈ fates, fate = .ok) :
    program.exec device medium fates = program.exec device medium [] := by
  induction program generalizing medium fates with
  | ret value => rfl
  | call op next ih =>
      cases fates with
      | nil => rfl
      | cons fate fates =>
          rw [completes fate List.mem_cons_self]
          exact ih true _ fun other member => completes other (List.mem_cons_of_mem _ member)

theorem exec_call_ne_done {op : Op} {next : Bool → Program Op α} {medium final : D}
    {fates : List Fate} {value : α} (stops : fates.head?.any Fate.stops = true) :
    (call op next).exec device medium fates ≠ .done value final := by
  intro finished
  cases fates with
  | nil => cases stops
  | cons fate fates =>
      cases fate with
      | ok => cases stops
      | err reached => cases stops
      | crash reached => cases finished

section Faulty

theorem wpFaulty_crash {crash' : D → Prop} {program : Program Op α} {medium : D}
    (holds : program.wpFaulty device post crash medium)
    (weaker : ∀ medium, crash medium → crash' medium) :
    program.wpFaulty device post crash' medium := by
  induction program generalizing medium with
  | ret value => exact holds
  | call op next ih =>
      exact ⟨ih true holds.1, ih false holds.2.1, fun reached => weaker _ (holds.2.2 reached)⟩

theorem wpFaulty_bind {post : β → D → Prop} {program : Program Op α} {f : α → Program Op β}
    {medium : D} (holds : program.wpFaulty device
      (fun value medium => (f value).wpFaulty device post crash medium) crash medium) :
    (program >>= f).wpFaulty device post crash medium := by
  induction program generalizing medium with
  | ret value => exact holds
  | call op next ih => exact ⟨ih true holds.1, ih false holds.2.1, holds.2.2⟩

theorem wpFaulty_exec {program : Program Op α} {medium : D} {fates : List Fate}
    (holds : program.wpFaulty device post crash medium) (traceless : Traceless fates) :
    (program.exec device medium fates).Meets post crash := by
  induction program generalizing medium fates with
  | ret value => exact holds
  | call op next ih =>
      cases fates with
      | nil => exact ih true holds.1 traceless
      | cons fate fates =>
          have rest : Traceless fates :=
            fun other member => traceless other (List.mem_cons_of_mem _ member)
          cases fate with
          | ok => exact ih true holds.1 rest
          | err reached =>
              have clean := traceless (.err reached) List.mem_cons_self
              simp only [Fate.traceless, decide_eq_true_eq] at clean
              simp only [exec, clean, device.torn_zero]
              exact ih false holds.2.1 rest
          | crash reached => exact holds.2.2 reached

end Faulty

section Value

@[simp] theorem value_ret (value : α) : (ret value : Program Op α).value = value := rfl

@[simp] theorem value_call (op : Op) (next : Bool → Program Op α) :
    (call op next).value = (next true).value := rfl

@[simp] theorem value_bind (program : Program Op α) (f : α → Program Op β) :
    (program >>= f).value = (f program.value).value := by
  induction program with
  | ret value => rfl
  | call op next ih => exact ih true

/-- Without a fate that says otherwise, every call succeeds and the program returns. -/
theorem exec_value (program : Program Op α) (medium : D) :
    ∃ final, program.exec device medium [] = .done program.value final := by
  induction program generalizing medium with
  | ret value => exact ⟨medium, rfl⟩
  | call op next ih => exact ih true _

end Value

section Does

variable {may : Op → Prop} {post : α → Prop}

@[simp] theorem does_ret (value : α) : (ret value : Program Op α).Does may post ↔ post value :=
  Iff.rfl

@[simp] theorem does_call (op : Op) (next : Bool → Program Op α) :
    (call op next).Does may post ↔
      may op ∧ (next true).Does may post ∧ (next false).Does may post := by
  constructor
  · intro does
    exact ⟨does.1, does.2 true, does.2 false⟩
  · intro ⟨admitted, success, failure⟩
    refine ⟨admitted, fun answer => ?_⟩
    cases answer
    · exact failure
    · exact success

theorem Does.mono {weaker : α → Prop} {program : Program Op α} (does : program.Does may post)
    (implies : ∀ value, post value → weaker value) : program.Does may weaker := by
  induction program with
  | ret value => exact implies value does
  | call op next ih => exact ⟨does.1, fun answer => ih answer (does.2 answer)⟩

theorem Does.bind {after : β → Prop} {program : Program Op α} {f : α → Program Op β}
    (does : program.Does may fun value => (f value).Does may after) :
    (program >>= f).Does may after := by
  induction program with
  | ret value => exact does
  | call op next ih => exact ⟨does.1, fun answer => ih answer (does.2 answer)⟩

theorem does_any (program : Program Op α) : program.Does (fun _ => True) (fun _ => True) := by
  induction program with
  | ret value => trivial
  | call op next ih => exact ⟨trivial, ih⟩

/-- What every admissible call keeps, whether it succeeds, fails or stops the machine, a run
keeps. -/
theorem Does.exec {keeps : D → Prop} {program : Program Op α} (does : program.Does may post)
    (complete : ∀ op medium, may op → keeps medium → keeps (device.complete op medium))
    (torn : ∀ op reached medium, may op → keeps medium → keeps (device.torn op reached medium))
    {medium : D} (holds : keeps medium) (fates : List Fate) :
    (program.exec device medium fates).Meets (fun value medium => post value ∧ keeps medium)
      keeps := by
  induction program generalizing medium fates with
  | ret value => exact ⟨does, holds⟩
  | call op next ih =>
      have success := ih true (does.2 true) (complete op medium does.1 holds)
      cases fates with
      | nil => exact success []
      | cons fate fates =>
          cases fate with
          | ok => exact success fates
          | err reached => exact ih false (does.2 false) (torn op reached medium does.1 holds) fates
          | crash reached => exact torn op reached medium does.1 holds

theorem Does.wp {keeps : D → Prop} {program : Program Op α} (does : program.Does may post)
    (complete : ∀ op medium, may op → keeps medium → keeps (device.complete op medium))
    (torn : ∀ op reached medium, may op → keeps medium → keeps (device.torn op reached medium))
    {medium : D} (holds : keeps medium) :
    program.wp device (fun _ medium => keeps medium) keeps medium := by
  induction program generalizing medium with
  | ret value => exact holds
  | call op next ih =>
      exact ⟨ih true (does.2 true) (complete op medium does.1 holds),
        fun reached => torn op reached medium does.1 holds⟩

end Does

section Ends

variable {post : α → D → Prop}

theorem Ends.bind {after : β → D → Prop} {program : Program Op α} {f : α → Program Op β}
    {medium : D}
    (ends : program.Ends device (fun value medium => (f value).Ends device after medium) medium) :
    (program >>= f).Ends device after medium := by
  induction program generalizing medium with
  | ret value => exact ends
  | call op next ih => exact ⟨ih true ends.1, fun reached => ih false (ends.2 reached)⟩

theorem Ends.exec {program : Program Op α} {medium final : D} {fates : List Fate} {value : α}
    (ends : program.Ends device post medium)
    (finished : program.exec device medium fates = .done value final) : post value final := by
  induction program generalizing medium fates with
  | ret result =>
      cases finished
      exact ends
  | call op next ih =>
      cases fates with
      | nil => exact ih true ends.1 finished
      | cons fate fates =>
          cases fate with
          | ok => exact ih true ends.1 finished
          | err reached => exact ih false (ends.2 reached) finished
          | crash reached => cases finished

end Ends

section All

variable {post : α → Prop}

@[simp] theorem all_ret (value : α) : (ret value : Program Op α).All post ↔ post value := Iff.rfl

@[simp] theorem all_call (op : Op) (next : Bool → Program Op α) :
    (call op next).All post ↔ (next true).All post ∧ (next false).All post := by
  constructor
  · intro every
    exact ⟨every true, every false⟩
  · rintro ⟨success, failure⟩ answer
    cases answer
    · exact failure
    · exact success

theorem All.mono {weaker : α → Prop} {program : Program Op α} (every : program.All post)
    (implies : ∀ value, post value → weaker value) : program.All weaker := by
  induction program with
  | ret value => exact implies value every
  | call op next ih => exact fun answer => ih answer (every answer)

theorem All.bind {after : β → Prop} {program : Program Op α} {f : α → Program Op β}
    (every : program.All fun value => (f value).All after) : (program >>= f).All after := by
  induction program with
  | ret value => exact every
  | call op next ih => exact fun answer => ih answer (every answer)

theorem All.exec {program : Program Op α} (every : program.All post) {medium final : D}
    {fates : List Fate} {value : α}
    (finished : program.exec device medium fates = .done value final) :
    post value := by
  induction program generalizing medium fates with
  | ret result =>
      simp only [Program.exec, Outcome.done.injEq] at finished
      exact finished.1 ▸ every
  | call op next ih =>
      cases fates with
      | nil => exact ih true (every true) finished
      | cons fate fates =>
          cases fate with
          | ok => exact ih true (every true) finished
          | err reached => exact ih false (every false) finished
          | crash reached => cases finished

theorem All.value {program : Program Op α} (every : program.All post) : post program.value := by
  induction program with
  | ret value => exact every
  | call op next ih => exact ih true (every true)

theorem Does.all {may : Op → Prop} {program : Program Op α} (does : program.Does may post) :
    program.All post := by
  induction program with
  | ret value => exact does
  | call op next ih => exact fun answer => ih answer (does.2 answer)

end All

section Traces

variable {post : List (Op × Bool) → α → Prop}

@[simp] theorem traces_ret (value : α) : (ret value : Program Op α).Traces post ↔ post [] value :=
  Iff.rfl

@[simp] theorem traces_call (op : Op) (next : Bool → Program Op α) :
    (call op next).Traces post ↔ ((next true).Traces fun calls => post ((op, true) :: calls)) ∧
      (next false).Traces fun calls => post ((op, false) :: calls) := by
  constructor
  · intro every
    exact ⟨every true, every false⟩
  · rintro ⟨success, failure⟩ answer
    cases answer
    · exact failure
    · exact success

theorem Traces.mono {weaker : List (Op × Bool) → α → Prop} {program : Program Op α}
    (every : program.Traces post) (implies : ∀ calls value, post calls value → weaker calls value) :
    program.Traces weaker := by
  induction program generalizing post weaker with
  | ret value => exact implies [] value every
  | call op next ih =>
      exact fun answer => ih answer (every answer) fun calls value => implies _ value

theorem Traces.bind {after : List (Op × Bool) → β → Prop} {program : Program Op α}
    {f : α → Program Op β}
    (every : program.Traces fun first value => (f value).Traces fun second =>
      after (first ++ second)) :
    (program >>= f).Traces after := by
  induction program generalizing after with
  | ret value => exact every
  | call op next ih => exact fun answer => ih answer (every answer)

theorem Traces.exec {program : Program Op α} (every : program.Traces post) {medium final : D}
    {fates : List Fate} {value : α}
    (finished : program.exec device medium fates = .done value final) :
    post (program.trace fates) value := by
  induction program generalizing post medium fates with
  | ret result =>
      cases finished
      exact every
  | call op next ih =>
      cases fates with
      | nil => exact ih true (every true) finished
      | cons fate fates =>
          cases fate with
          | ok => exact ih true (every true) finished
          | err reached => exact ih false (every false) finished
          | crash reached => cases finished

end Traces

end Program

end GoRaftKV.Library
