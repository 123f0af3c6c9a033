import Mathlib.Logic.Relation
import Mathlib.Tactic.Common

/-!
# Partial computations and their runs

A computation that may stop is an `Except` value. The lemmas here take a
successful computation apart at each bind, and lift what one step preserves to
what a whole run preserves. Nothing in this module names a particular program.
-/

namespace MemoryEncryption.Outcome

variable {ε α β : Type}

/-- A bind succeeds exactly when both of its parts do. -/
theorem bind_eq_ok {first : Except ε α} {next : α → Except ε β} {result : β} :
    (first >>= next) = .ok result ↔ ∃ value, first = .ok value ∧ next value = .ok result := by
  cases first with
  | error stop => simp [bind, Except.bind]
  | ok value => simp [bind, Except.bind]

/-- A successful computation hands its value to the rest of the bind. -/
@[simp] theorem ok_bind (value : α) (next : α → Except ε β) :
    ((Except.ok value : Except ε α) >>= next) = next value := rfl

@[simp] theorem error_bind (stop : ε) (next : α → Except ε β) :
    ((Except.error stop : Except ε α) >>= next) = .error stop := rfl

/-- A mapped computation succeeds exactly when the computation does. -/
theorem map_eq_ok {first : Except ε α} {f : α → β} {result : β} :
    f <$> first = .ok result ↔ ∃ value, first = .ok value ∧ f value = result := by
  cases first with
  | error stop => simp [Functor.map, Except.map]
  | ok value => simp [Functor.map, Except.map]

theorem exists_ok {first : Except ε α} {test : α → β} {seen : β}
    (returns : (first.map test).toOption = some seen) :
    ∃ value, first = .ok value ∧ test value = seen := by
  cases first with
  | error stop => simp [Except.map, Except.toOption] at returns
  | ok value => exact ⟨value, rfl, Option.some.inj returns⟩

/-- Execute a list of actions from left to right, stopping at the first failure. -/
def run {σ ι : Type} (step : σ → ι → Except ε σ) : σ → List ι → Except ε σ
  | state, [] => .ok state
  | state, action :: rest => step state action >>= fun next => run step next rest

variable {σ ι : Type} {final : σ} {actions : List ι}

/-- What every admitted step preserves holds at the end of every run whose actions are
admitted. -/
theorem run_invariant {step : σ → ι → Except ε σ} (inv : σ → Prop) (admitted : ι → Prop)
    (preserved : ∀ state action next, inv state → admitted action →
      step state action = .ok next → inv next) {state : σ} (start : inv state)
    (allowed : ∀ action ∈ actions, admitted action) (finished : run step state actions = .ok final) :
    inv final := by
  induction actions generalizing state with
  | nil =>
    obtain rfl : state = final := Except.ok.inj finished
    exact start
  | cons action rest ih =>
    obtain ⟨next, stepped, remaining⟩ := bind_eq_ok.mp finished
    exact ih (preserved state action next start (allowed action (by simp)) stepped)
      (fun later member => allowed later (by simp [member])) remaining

/-- One step by an action that is allowed in the state it is taken in. -/
def Steps {σ ι : Type} (step : σ → ι → Except ε σ) (allowed : σ → ι → Prop)
    (state next : σ) : Prop :=
  ∃ action, allowed state action ∧ step state action = .ok next

variable {allowed : σ → ι → Prop}

/-- What every allowed step preserves holds in every state that allowed steps lead to. -/
theorem steps_invariant {step : σ → ι → Except ε σ} (inv : σ → Prop)
    (preserved : ∀ state action next, inv state → allowed state action →
      step state action = .ok next → inv next) {state : σ} (start : inv state)
    (run : Relation.ReflTransGen (Steps step allowed) state final) : inv final := by
  induction run with
  | refl => exact start
  | tail _ last ih =>
    obtain ⟨action, admitted, stepped⟩ := last
    exact preserved _ action _ ih admitted stepped

/-- A finished run over a list leads to its last state by any relation that contains the steps. -/
theorem run_reaches {step : σ → ι → Except ε σ} {related : σ → σ → Prop}
    (each : ∀ state action next, step state action = .ok next → related state next) {state : σ}
    (finished : run step state actions = .ok final) :
    Relation.ReflTransGen related state final := by
  induction actions generalizing state with
  | nil =>
    obtain rfl : state = final := Except.ok.inj finished
    exact .refl
  | cons action rest ih =>
    obtain ⟨next, stepped, remaining⟩ := bind_eq_ok.mp finished
    exact .head (each state action next stepped) (ih remaining)

/-- The step, stopping at actions that are not allowed. -/
def guarded {σ ι : Type} (step : σ → ι → Except ε σ) (allowed : σ → ι → Prop)
    [∀ state action, Decidable (allowed state action)] (stop : ε) (state : σ) (action : ι) :
    Except ε σ :=
  if allowed state action then step state action else .error stop

theorem guarded_steps {step : σ → ι → Except ε σ} [∀ state action, Decidable (allowed state action)]
    {stop : ε} {state next : σ} {action : ι}
    (stepped : guarded step allowed stop state action = .ok next) :
    Steps step allowed state next := by
  unfold guarded at stepped
  split at stepped
  case isTrue permitted => exact ⟨action, permitted, stepped⟩
  case isFalse => cases stepped

/-- A finished run over a list that stops at actions not allowed is a run of allowed steps. -/
theorem run_guarded {step : σ → ι → Except ε σ} [∀ state action, Decidable (allowed state action)]
    {stop : ε} {state : σ} (finished : run (guarded step allowed stop) state actions = .ok final) :
    Relation.ReflTransGen (Steps step allowed) state final := by
  have each : ∀ state action next, guarded step allowed stop state action = .ok next →
      Steps step allowed state next := fun _ _ _ stepped => guarded_steps stepped
  exact run_reaches each finished

/-! ## Outcomes of computations -/

/-- A computation either returns a good value or stops for an admitted reason. -/
def Yields (good : α → Prop) (bad : ε → Prop) : Except ε α → Prop
  | .ok value => good value
  | .error stop => bad stop

namespace Yields

variable {good : α → Prop} {bad : ε → Prop} {first : Except ε α}

/-- The rest of a computation starts from a good value of its first part. -/
theorem bind {middle : α → Prop} {after : β → Prop} {next : α → Except ε β}
    (begins : Yields middle bad first) (ends : ∀ value, middle value → Yields after bad (next value)) :
    Yields after bad (first >>= next) := by
  cases first with
  | error stop => exact begins
  | ok value => exact ends value begins

theorem mono {better : α → Prop} (yields : Yields better bad first)
    (implies : ∀ value, better value → good value) : Yields good bad first := by
  cases first with
  | error stop => exact yields
  | ok value => exact implies value yields

theorem and {other : α → Prop} (one : Yields good bad first)
    (two : Yields other (fun _ => True) first) :
    Yields (fun value => good value ∧ other value) bad first := by
  cases first with
  | error stop => exact one
  | ok value => exact ⟨one, two⟩

theorem of_ok {value : α} (yields : Yields good bad first) (returned : first = .ok value) :
    good value := by
  rw [returned] at yields
  exact yields

/-- What is known of the state in a pair is known of the state. -/
theorem snd {holds : σ → Prop} {pair : Except ε (α × σ)}
    (yields : Yields (fun r => holds r.2) bad pair) : Yields holds bad (Prod.snd <$> pair) := by
  cases pair with
  | error stop => exact yields
  | ok r => exact yields

end Yields

end MemoryEncryption.Outcome
