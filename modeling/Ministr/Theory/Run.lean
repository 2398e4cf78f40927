/-
# Theory.Run — runs of a partial step function, and what holds along them

A component is a state type, an event type and a step function that answers
`none` when the event is not enabled.  `exec` takes a list of events;
`Throughout` says that a property holds in every state a run visits, and
`EachStep` that every event of a run meets a condition at the state it is taken
from.  Safety arguments about a component then reduce to one fact about one
step:

* `exec_invariant` — a property the admitted steps keep holds at the end of a
  run of admitted steps;
* `throughout_of_eachStep` — and in every state on the way;
* `throughout_iff_eachStep` — when a step keeps the property exactly when it is
  admitted, the property holds along a run exactly when every step is admitted.
-/
import Mathlib.Data.Option.Basic
import Mathlib.Tactic.Common

namespace Ministr.Theory

set_option autoImplicit false

universe u v

/-- A computation in two parts succeeds when both do. -/
theorem bind_eq_ok {ε : Type v} {α β : Type u} {x : Except ε α} {f : α → Except ε β} {b : β} :
    x >>= f = .ok b ↔ ∃ a, x = .ok a ∧ f a = .ok b := by
  cases x <;> simp [bind, Except.bind]

section Runs

variable {σ : Type u} {ε : Type v} (step : σ → ε → Option σ)

/-- The state after the events, taken in order; `none` when one is not enabled. -/
def exec : σ → List ε → Option σ
  | s, [] => some s
  | s, e :: es => (step s e).bind fun t => exec t es

/-- `P` holds in every state the run visits, the first and the last included. -/
def Throughout (P : σ → Prop) : σ → List ε → Prop
  | s, [] => P s
  | s, e :: es => P s ∧ ∀ t, step s e = some t → Throughout P t es

/-- Every event of the run meets `cond` at the state it is taken from. -/
def EachStep (cond : σ → ε → Prop) : σ → List ε → Prop
  | _, [] => True
  | s, e :: es => cond s e ∧ ∀ t, step s e = some t → EachStep cond t es

@[simp] theorem exec_nil (s : σ) : exec step s [] = some s := rfl

theorem exec_cons_eq_some {s t : σ} {e : ε} {es : List ε} :
    exec step s (e :: es) = some t ↔ ∃ m, step s e = some m ∧ exec step m es = some t := by
  simp only [exec, Option.bind_eq_some_iff]

/-- Whether every event of a run meets a decidable condition. -/
def decideEachStep (cond : σ → ε → Prop) [∀ s e, Decidable (cond s e)] :
    (s : σ) → (es : List ε) → Decidable (EachStep step cond s es)
  | _, [] => isTrue trivial
  | s, e :: es =>
      match taken : step s e with
      | none =>
          decidable_of_iff (cond s e)
            ⟨fun here => ⟨here, fun _ later => by cases taken.symm.trans later⟩, And.left⟩
      | some t =>
          have := decideEachStep cond t es
          decidable_of_iff (cond s e ∧ EachStep step cond t es)
            ⟨fun ⟨here, rest⟩ => ⟨here, fun t' later => by
              cases taken.symm.trans later
              exact rest⟩, fun ⟨here, rest⟩ => ⟨here, rest t taken⟩⟩

instance {cond : σ → ε → Prop} [∀ s e, Decidable (cond s e)] (s : σ) (es : List ε) :
    Decidable (EachStep step cond s es) :=
  decideEachStep step cond s es

variable {step}

/-- A run that is known step by step is checked step by step. -/
theorem EachStep.cons {cond : σ → ε → Prop} {s t : σ} {e : ε} {es : List ε} (here : cond s e)
    (taken : step s e = some t) (rest : EachStep step cond t es) :
    EachStep step cond s (e :: es) := by
  refine ⟨here, fun t' taken' => ?_⟩
  rw [taken, Option.some.injEq] at taken'
  exact taken' ▸ rest

/-- Events that are admitted in every state. -/
theorem eachStep_of_forall {cond : σ → ε → Prop} {es : List ε} (always : ∀ e ∈ es, ∀ s, cond s e)
    (s : σ) : EachStep step cond s es := by
  induction es generalizing s with
  | nil => trivial
  | cons e es ih =>
      exact ⟨always e List.mem_cons_self s,
        fun t _ => ih (fun e mem => always e (List.mem_cons_of_mem _ mem)) t⟩

/-- What the invariant gives for each event of the run, at the state it is taken from. -/
theorem eachStep_of_invariant (Inv : σ → Prop) {cond : σ → ε → Prop} {es : List ε}
    (gives : ∀ s, Inv s → ∀ e ∈ es, cond s e)
    (keeps : ∀ s, Inv s → ∀ e ∈ es, ∀ t, step s e = some t → Inv t) {s : σ} (init : Inv s) :
    EachStep step cond s es := by
  induction es generalizing s with
  | nil => trivial
  | cons e es ih =>
      refine ⟨gives s init e List.mem_cons_self, fun t taken => ?_⟩
      refine ih (fun s inv e mem => gives s inv e (List.mem_cons_of_mem _ mem))
        (fun s inv e mem => keeps s inv e (List.mem_cons_of_mem _ mem)) ?_
      exact keeps s init e List.mem_cons_self t taken

/-- A condition may be replaced by one that follows from it and from an invariant. -/
theorem EachStep.imp_of_invariant (Inv : σ → Prop) {cond cond' : σ → ε → Prop}
    (gives : ∀ s e, Inv s → cond s e → cond' s e)
    (keeps : ∀ s e t, Inv s → step s e = some t → Inv t) {s : σ} {es : List ε} (init : Inv s)
    (each : EachStep step cond s es) : EachStep step cond' s es := by
  induction es generalizing s with
  | nil => trivial
  | cons e es ih =>
      exact ⟨gives s e init each.1, fun t taken => ih (keeps s e t init taken) (each.2 t taken)⟩

theorem EachStep.and {cond cond' : σ → ε → Prop} {s : σ} {es : List ε}
    (left : EachStep step cond s es) (right : EachStep step cond' s es) :
    EachStep step (fun s e => cond s e ∧ cond' s e) s es := by
  induction es generalizing s with
  | nil => trivial
  | cons e es ih =>
      exact ⟨⟨left.1, right.1⟩, fun t taken => ih (left.2 t taken) (right.2 t taken)⟩

theorem EachStep.append_left {cond : σ → ε → Prop} {s : σ} {es later : List ε}
    (each : EachStep step cond s (es ++ later)) : EachStep step cond s es := by
  induction es generalizing s with
  | nil => trivial
  | cons e es ih => exact ⟨each.1, fun t taken => ih (each.2 t taken)⟩

theorem EachStep.append_right {cond : σ → ε → Prop} {s t : σ} {es later : List ε}
    (each : EachStep step cond s (es ++ later)) (ran : exec step s es = some t) :
    EachStep step cond t later := by
  induction es generalizing s with
  | nil =>
      simp only [exec_nil, Option.some.injEq] at ran
      exact ran ▸ each
  | cons e es ih =>
      obtain ⟨m, taken, rest⟩ := (exec_cons_eq_some step).mp ran
      exact ih (each.2 m taken) rest

/-- A condition that holds wherever the run can be cut holds of each step. -/
theorem eachStep_of_cuts {cond : σ → ε → Prop} {s : σ} {es : List ε}
    (cut : ∀ past e future t, es = past ++ e :: future → exec step s past = some t → cond t e) :
    EachStep step cond s es := by
  induction es generalizing s with
  | nil => trivial
  | cons e es ih =>
      refine ⟨cut [] e es s rfl rfl, fun m taken => ih fun past e' future t split ran => ?_⟩
      refine cut (e :: past) e' future t (by rw [split]; rfl) ?_
      exact (exec_cons_eq_some step).mpr ⟨m, taken, ran⟩

/-- What every admitted step keeps holds at the end of a run of admitted steps. -/
theorem exec_invariant {Inv : σ → Prop} {cond : σ → ε → Prop}
    (keeps : ∀ s e t, Inv s → cond s e → step s e = some t → Inv t)
    {s t : σ} {es : List ε} (init : Inv s) (admitted : EachStep step cond s es)
    (ran : exec step s es = some t) : Inv t := by
  induction es generalizing s with
  | nil =>
      simp only [exec_nil, Option.some.injEq] at ran
      exact ran ▸ init
  | cons e es ih =>
      obtain ⟨m, taken, rest⟩ := (exec_cons_eq_some step).mp ran
      exact ih (keeps s e m init admitted.1 taken) (admitted.2 m taken) rest

/-- What every admitted step keeps holds in every state of a run of admitted
steps. -/
theorem throughout_of_eachStep {Inv : σ → Prop} {cond : σ → ε → Prop}
    (keeps : ∀ s e t, Inv s → cond s e → step s e = some t → Inv t)
    {s : σ} {es : List ε} (init : Inv s) (admitted : EachStep step cond s es) :
    Throughout step Inv s es := by
  induction es generalizing s with
  | nil => exact init
  | cons e es ih =>
      exact ⟨init, fun m taken => ih (keeps s e m init admitted.1 taken) (admitted.2 m taken)⟩

/-- The unconditional form: what every step keeps holds in every state of every run. -/
theorem throughout_of_keeps {Inv : σ → Prop}
    (keeps : ∀ s e t, Inv s → step s e = some t → Inv t)
    {s : σ} (es : List ε) (init : Inv s) : Throughout step Inv s es := by
  induction es generalizing s with
  | nil => exact init
  | cons e es ih => exact ⟨init, fun m taken => ih (keeps s e m init taken)⟩

theorem Throughout.imp {P Q : σ → Prop} (weaker : ∀ s, P s → Q s) {s : σ} {es : List ε}
    (holds : Throughout step P s es) : Throughout step Q s es := by
  induction es generalizing s with
  | nil => exact weaker s holds
  | cons e es ih => exact ⟨weaker s holds.1, fun m taken => ih (holds.2 m taken)⟩

/-- A property of every visited state holds in particular of the last one. -/
theorem Throughout.last {P : σ → Prop} {s t : σ} {es : List ε}
    (holds : Throughout step P s es) (ran : exec step s es = some t) : P t := by
  induction es generalizing s with
  | nil =>
      simp only [exec_nil, Option.some.injEq] at ran
      exact ran ▸ holds
  | cons e es ih =>
      obtain ⟨m, taken, rest⟩ := (exec_cons_eq_some step).mp ran
      exact ih (holds.2 m taken) rest

/-- **Exactness.**  When a step out of a good state leads to a good state exactly
when it is admitted, a complete run stays good exactly when its steps are all
admitted.  `Inv` is what the induction needs besides `P`; every step keeps it. -/
theorem throughout_iff_eachStep (Inv : σ → Prop) {P : σ → Prop} {cond : σ → ε → Prop}
    (keeps : ∀ s e t, Inv s → step s e = some t → Inv t)
    (exact_step : ∀ s e t, Inv s → P s → step s e = some t → (P t ↔ cond s e))
    {s t : σ} {es : List ε} (inv : Inv s) (good : P s) (ran : exec step s es = some t) :
    Throughout step P s es ↔ EachStep step cond s es := by
  induction es generalizing s with
  | nil => exact ⟨fun _ => trivial, fun _ => good⟩
  | cons e es ih =>
      obtain ⟨m, taken, rest⟩ := (exec_cons_eq_some step).mp ran
      have invNext := keeps s e m inv taken
      have same : ∀ n, step s e = some n → n = m := fun n h =>
        Option.some.inj (h.symm.trans taken)
      constructor
      · rintro ⟨_, later⟩
        have tail := later m taken
        have goodNext : P m := by
          cases es with
          | nil => exact tail
          | cons _ _ => exact tail.1
        refine ⟨(exact_step s e m inv good taken).mp goodNext, fun n h => ?_⟩
        rw [same n h]
        exact (ih invNext goodNext rest).mp tail
      · rintro ⟨here, later⟩
        have goodNext := (exact_step s e m inv good taken).mpr here
        refine ⟨good, fun n h => ?_⟩
        rw [same n h]
        exact (ih invNext goodNext rest).mpr (later m taken)

end Runs

end Ministr.Theory
