import Mathlib.Data.List.Induction

/-!
Runs of a partial transition function. An action carries every choice made at
a step, so a run is determined by its list of actions; `none` is a step the
system does not have.
-/

namespace Runs

variable {σ α : Type*} (step : σ → α → Option σ)

def run : σ → List α → Option σ
  | state, [] => some state
  | state, action :: rest => (step state action).bind fun next => run next rest

/-- Every step of the run satisfies `guard` in the state it starts from. -/
def Along (guard : σ → α → Prop) : σ → List α → Prop
  | _, [] => True
  | state, action :: rest =>
      guard state action ∧ ∀ next, step state action = some next → Along guard next rest

def checkAlong (guard : σ → α → Bool) : σ → List α → Bool
  | _, [] => true
  | state, action :: rest =>
      guard state action &&
        match step state action with
        | none => true
        | some next => checkAlong guard next rest

variable {step}

theorem along_of_check {guard : σ → α → Prop} [∀ state action, Decidable (guard state action)]
    {state : σ} {actions : List α}
    (checked : checkAlong step (fun state action => decide (guard state action)) state actions =
      true) : Along step guard state actions := by
  induction actions generalizing state with
  | nil => trivial
  | cons action rest ih =>
      simp only [checkAlong, Bool.and_eq_true] at checked
      refine ⟨of_decide_eq_true checked.1, fun next stepped => ?_⟩
      have later := checked.2
      rw [stepped] at later
      exact ih later

@[simp] theorem run_nil (state : σ) : run step state [] = some state := rfl

theorem run_cons (state : σ) (action : α) (rest : List α) :
    run step state (action :: rest) =
      (step state action).bind fun next => run step next rest := rfl

theorem run_append (state : σ) (first second : List α) :
    run step state (first ++ second) =
      (run step state first).bind fun next => run step next second := by
  induction first generalizing state with
  | nil => simp
  | cons action rest ih =>
      simp only [List.cons_append, run_cons, Option.bind_assoc]
      congr 1
      funext next
      exact ih next

theorem run_invariant_along (invariant : σ → Prop) {guard : σ → α → Prop}
    (preserved : ∀ state action next, invariant state → guard state action →
      step state action = some next → invariant next)
    {state final : σ} {actions : List α} (holds : invariant state)
    (guarded : Along step guard state actions)
    (ran : run step state actions = some final) : invariant final := by
  induction actions generalizing state with
  | nil =>
      simp only [run_nil, Option.some.injEq] at ran
      exact ran ▸ holds
  | cons action rest ih =>
      simp only [run_cons, Option.bind_eq_some_iff] at ran
      obtain ⟨next, stepped, later⟩ := ran
      exact ih (preserved state action next holds guarded.1 stepped)
        (guarded.2 next stepped) later

theorem along_true (state : σ) (actions : List α) :
    Along step (fun _ _ => True) state actions := by
  induction actions generalizing state with
  | nil => trivial
  | cons action rest ih => exact ⟨trivial, fun next _ => ih next⟩

theorem Along.and {guard other : σ → α → Prop} {state : σ} {actions : List α}
    (first : Along step guard state actions) (second : Along step other state actions) :
    Along step (fun state action => guard state action ∧ other state action) state actions := by
  induction actions generalizing state with
  | nil => trivial
  | cons action rest ih =>
      exact ⟨⟨first.1, second.1⟩, fun next stepped =>
        ih (first.2 next stepped) (second.2 next stepped)⟩

theorem run_invariant (invariant : σ → Prop)
    (preserved : ∀ state action next, invariant state → step state action = some next →
      invariant next)
    {state final : σ} {actions : List α} (holds : invariant state)
    (ran : run step state actions = some final) : invariant final :=
  run_invariant_along invariant
    (fun state action next kept _ stepped => preserved state action next kept stepped) holds
    (along_true state actions) ran

theorem run_total {invariant : σ → Prop} (guard : σ → α → Prop)
    (progress : ∀ state action, invariant state → guard state action →
      ∃ next, step state action = some next ∧ invariant next)
    {state : σ} {actions : List α} (holds : invariant state)
    (guarded : Along step guard state actions) :
    ∃ final, run step state actions = some final ∧ invariant final := by
  induction actions generalizing state with
  | nil => exact ⟨state, rfl, holds⟩
  | cons action rest ih =>
      obtain ⟨next, stepped, kept⟩ := progress state action holds guarded.1
      obtain ⟨final, ran, done⟩ := ih kept (guarded.2 next stepped)
      exact ⟨final, by simp [run_cons, stepped, ran], done⟩

/-- A run leads to the goal when, short of it, a step leads on and lowers the potential. -/
theorem run_reaches (invariant goal : σ → Prop) {allowed : α → Prop} (potential : σ → Nat)
    (progress : ∀ state, invariant state → ¬goal state → ∃ action next, allowed action ∧
      step state action = some next ∧ invariant next ∧ potential next < potential state)
    {state : σ} (holds : invariant state) :
    ∃ actions final, (∀ action ∈ actions, allowed action) ∧
      run step state actions = some final ∧ goal final := by
  induction size : potential state using Nat.strongRecOn generalizing state with
  | ind size ih =>
      by_cases there : goal state
      · exact ⟨[], state, fun _ member => absurd member List.not_mem_nil, rfl, there⟩
      · obtain ⟨action, next, may, stepped, kept, lower⟩ := progress state holds there
        obtain ⟨actions, final, others, ran, reached⟩ := ih (potential next) (size ▸ lower) kept rfl
        exact ⟨action :: actions, final, List.forall_mem_cons.mpr ⟨may, others⟩,
          by simp [run_cons, stepped, ran], reached⟩

/-- A guarded run is not longer than its potential, and what is gained on the way, allow. -/
theorem run_length_le (invariant : σ → Prop) {guard : σ → α → Prop} (potential gain : σ → Nat)
    (preserved : ∀ state action next, invariant state → guard state action →
      step state action = some next → invariant next)
    (falls : ∀ state action next, invariant state → guard state action →
      step state action = some next → potential next + 1 + gain state ≤ potential state + gain next)
    {state final : σ} {actions : List α} (holds : invariant state)
    (guarded : Along step guard state actions) (ran : run step state actions = some final) :
    actions.length + potential final + gain state ≤ potential state + gain final := by
  induction actions generalizing state with
  | nil =>
      simp only [run_nil, Option.some.injEq] at ran
      subst ran
      simp
  | cons action rest ih =>
      simp only [run_cons, Option.bind_eq_some_iff] at ran
      obtain ⟨next, stepped, later⟩ := ran
      have first := falls state action next holds guarded.1 stepped
      have tail := ih (preserved state action next holds guarded.1 stepped)
        (guarded.2 next stepped) later
      rw [List.length_cons]
      omega

theorem along_of_forall {guard : σ → α → Prop} {actions : List α}
    (always : ∀ state, ∀ action ∈ actions, guard state action) (state : σ) :
    Along step guard state actions := by
  induction actions generalizing state with
  | nil => trivial
  | cons action rest ih =>
      exact ⟨always state action List.mem_cons_self, fun next _ =>
        ih (fun state action member => always state action (List.mem_cons_of_mem _ member)) next⟩

theorem run_prefix_succ (stream : Nat → α) (state : σ) (count : Nat) :
    run step state ((List.range (count + 1)).map stream) =
      (run step state ((List.range count).map stream)).bind fun next =>
        step next (stream count) := by
  rw [List.range_succ, List.map_append, run_append]
  congr 1
  funext next
  simp [run_cons]

/-! Two systems, one of which records more. -/

theorem along_iff_of_project {τ : Type*} {plain : τ → α → Option τ} (project : σ → τ)
    (invariant : σ → Prop)
    (commutes : ∀ state action, (step state action).map project = plain (project state) action)
    (preserved : ∀ state action next, invariant state → step state action = some next →
      invariant next)
    {guard : σ → α → Prop} {plainGuard : τ → α → Prop}
    (same : ∀ state action next, invariant state → step state action = some next →
      (guard state action ↔ plainGuard (project state) action))
    {state : σ} {final : τ} {actions : List α} (holds : invariant state)
    (ran : run plain (project state) actions = some final) :
    Along step guard state actions ↔ Along plain plainGuard (project state) actions := by
  induction actions generalizing state with
  | nil => exact Iff.rfl
  | cons action rest ih =>
      rw [run_cons, Option.bind_eq_some_iff] at ran
      obtain ⟨after, plainStepped, later⟩ := ran
      have projected := commutes state action
      rw [plainStepped, Option.map_eq_some_iff] at projected
      obtain ⟨next, stepped, rfl⟩ := projected
      have tail := ih (preserved state action next holds stepped) later
      constructor
      · rintro ⟨first, others⟩
        refine ⟨(same state action next holds stepped).mp first, fun after again => ?_⟩
        rw [plainStepped] at again
        rw [← Option.some.inj again]
        exact tail.mp (others next stepped)
      · rintro ⟨first, others⟩
        refine ⟨(same state action next holds stepped).mpr first, fun after again => ?_⟩
        rw [stepped] at again
        rw [← Option.some.inj again]
        exact tail.mpr (others _ plainStepped)

/-! Runs read from their end. -/

variable (step) in
def states : σ → List α → List σ
  | state, [] => [state]
  | state, action :: rest =>
      match step state action with
      | none => [state]
      | some next => states next rest ++ [state]

theorem run_induction {motive : List α → σ → Prop} {state : σ} (empty : motive [] state)
    (extended : ∀ actions before action after, run step state actions = some before →
      motive actions before → step before action = some after →
      motive (actions ++ [action]) after)
    {actions : List α} {final : σ} (ran : run step state actions = some final) :
    motive actions final := by
  induction actions using List.reverseRecOn generalizing final with
  | nil =>
      simp only [run_nil, Option.some.injEq] at ran
      exact ran ▸ empty
  | append_singleton actions action ih =>
      rw [run_append, Option.bind_eq_some_iff] at ran
      obtain ⟨before, ranBefore, last⟩ := ran
      rw [run_cons, Option.bind_eq_some_iff] at last
      obtain ⟨after, stepped, same⟩ := last
      obtain rfl : after = final := Option.some.inj same
      exact extended actions before action after ranBefore (ih ranBefore) stepped

theorem run_concat {state before after : σ} {actions : List α} {action : α}
    (ran : run step state actions = some before) (stepped : step before action = some after) :
    run step state (actions ++ [action]) = some after := by
  rw [run_append, ran, Option.bind_some, run_cons, stepped, Option.bind_some, run_nil]

theorem states_concat {state before after : σ} {actions : List α} {action : α}
    (ran : run step state actions = some before) (stepped : step before action = some after) :
    states step state (actions ++ [action]) = after :: states step state actions := by
  induction actions generalizing state with
  | nil =>
      simp only [run_nil, Option.some.injEq] at ran
      subst ran
      simp [states, stepped]
  | cons first rest ih =>
      rw [run_cons, Option.bind_eq_some_iff] at ran
      obtain ⟨next, firstStepped, later⟩ := ran
      simp only [List.cons_append, states, firstStepped]
      rw [ih later]
      rfl

theorem along_concat {guard : σ → α → Prop} {state before : σ} {actions : List α} {action : α}
    (ran : run step state actions = some before) :
    Along step guard state (actions ++ [action]) ↔
      Along step guard state actions ∧ guard before action := by
  induction actions generalizing state with
  | nil =>
      simp only [run_nil, Option.some.injEq] at ran
      subst ran
      simp [Along]
  | cons first rest ih =>
      rw [run_cons, Option.bind_eq_some_iff] at ran
      obtain ⟨next, stepped, later⟩ := ran
      have tail := ih later
      simp only [List.cons_append, Along, stepped, Option.some.injEq, forall_eq']
      rw [tail, and_assoc]

end Runs
