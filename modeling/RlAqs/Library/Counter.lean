import Mathlib.Data.List.Basic

/-!
A counting loop whose counter wraps around. A turn may fail, or leave the loop. With a bound the
counter can hold the loop comes to its end; with any other it never does, unless a turn ends it.
-/

namespace Counter

variable {ε σ : Type*}

inductive Turn (σ : Type*) where
  | next (state : σ)
  | leave (state : σ)

def Turn.state : Turn σ → σ
  | next state => state
  | leave state => state

/-- `for (i = i; i < bound; ++i)` with a counter modulo `width`. -/
def loop (unfinished : ε) (width bound : Nat) (body : Nat → σ → Except ε (Turn σ)) :
    Nat → Nat → σ → Except ε σ
  | 0, _, _ => .error unfinished
  | fuel + 1, i, state =>
      if i < bound then
        match body i state with
        | .error fault => .error fault
        | .ok (.leave state) => .ok state
        | .ok (.next state) => loop unfinished width bound body fuel ((i + 1) % width) state
      else .ok state

variable {unfinished : ε} {width bound : Nat} {body : Nat → σ → Except ε (Turn σ)}

theorem loop_invariant (invariant : σ → Prop)
    (preserved : ∀ i state turn, invariant state → body i state = .ok turn →
      invariant turn.state)
    {fuel i : Nat} {state final : σ} (holds : invariant state)
    (done : loop unfinished width bound body fuel i state = .ok final) : invariant final := by
  induction fuel generalizing i state with
  | zero => cases done
  | succ fuel ih =>
      rw [loop] at done
      split at done
      · split at done
        · cases done
        · rename_i left turned
          obtain rfl := Except.ok.inj done
          exact preserved i state _ holds turned
        · rename_i next turned
          exact ih (preserved i state _ holds turned) done
      · obtain rfl := Except.ok.inj done
        exact holds

theorem next_of_map {done : Except ε σ} {turn : Turn σ} (turned : done.map Turn.next = .ok turn) :
    ∃ next, done = .ok next ∧ turn = .next next := by
  cases done with
  | error fault => cases turned
  | ok next => exact ⟨next, rfl, (Except.ok.inj turned).symm⟩

theorem loop_established (invariant : σ → Prop) (some_turn : 0 < bound)
    (established : ∀ i state turn, body i state = .ok turn → invariant turn.state)
    {fuel : Nat} {state final : σ}
    (done : loop unfinished width bound body fuel 0 state = .ok final) : invariant final := by
  cases fuel with
  | zero => cases done
  | succ fuel =>
      rw [loop, if_pos some_turn] at done
      split at done
      · cases done
      · rename_i left turned
        obtain rfl := Except.ok.inj done
        exact established 0 state _ turned
      · rename_i next turned
        exact loop_invariant invariant (fun i state turn _ => established i state turn)
          (established 0 state _ turned) done

theorem loop_error {fuel i : Nat} {state : σ} {fault : ε}
    (failed : loop unfinished width bound body fuel i state = .error fault) :
    fault = unfinished ∨ ∃ i state, body i state = .error fault := by
  induction fuel generalizing i state with
  | zero => exact .inl (Except.error.inj failed).symm
  | succ fuel ih =>
      rw [loop] at failed
      split at failed
      · split at failed
        · rename_i turned
          obtain rfl := Except.error.inj failed
          exact .inr ⟨i, state, turned⟩
        · cases failed
        · exact ih failed
      · cases failed

/-- A counter that can hold the bound gets there. -/
theorem loop_finishes (narrow : bound < width)
    (finite : ∀ i state, body i state ≠ .error unfinished) {fuel i : Nat} (state : σ)
    (enough : bound < fuel + i) (inside : i ≤ bound) :
    loop unfinished width bound body fuel i state ≠ .error unfinished := by
  induction fuel generalizing i state with
  | zero => omega
  | succ fuel ih =>
      rw [loop]
      split
      · rename_i below
        split
        · rename_i fault turned
          intro same
          obtain rfl := Except.error.inj same
          exact finite i state turned
        · rintro ⟨⟩
        · rw [Nat.mod_eq_of_lt (by omega)]
          exact ih _ (by omega) (by omega)
      · rintro ⟨⟩

theorem loop_counted (narrow : bound < width) (invariant : Nat → σ → Prop)
    (goes_on : ∀ i state turn, body i state = .ok turn → ∃ next, turn = .next next)
    (preserved : ∀ i state next, i < bound → invariant i state →
      body i state = .ok (.next next) → invariant (i + 1) next)
    {fuel i : Nat} {state final : σ} (inside : i ≤ bound) (holds : invariant i state)
    (done : loop unfinished width bound body fuel i state = .ok final) : invariant bound final := by
  induction fuel generalizing i state with
  | zero => cases done
  | succ fuel ih =>
      rw [loop] at done
      split at done
      · rename_i below
        cases turned : body i state with
        | error fault => simp only [turned, reduceCtorEq] at done
        | ok turn =>
            obtain ⟨next, rfl⟩ := goes_on i state turn turned
            simp only [turned, Nat.mod_eq_of_lt (show i + 1 < width by omega)] at done
            exact ih below (preserved i state next below holds turned) done
      · obtain rfl := Except.ok.inj done
        obtain rfl : i = bound := by omega
        exact holds

/-- A counter that cannot hold the bound never gets there. -/
theorem loop_endless (positive : 0 < width) (wide : width ≤ bound)
    (goes_on : ∀ i state turn, body i state = .ok turn → ∃ next, turn = .next next)
    {fuel i : Nat} (inside : i < width) (state : σ) :
    ∃ fault, loop unfinished width bound body fuel i state = .error fault := by
  induction fuel generalizing i state with
  | zero => exact ⟨unfinished, rfl⟩
  | succ fuel ih =>
      rw [loop, if_pos (by omega)]
      cases turned : body i state with
      | error fault => exact ⟨fault, rfl⟩
      | ok turn =>
          obtain ⟨next, rfl⟩ := goes_on i state turn turned
          exact ih (Nat.mod_lt _ positive) next

theorem loop_returns_iff (positive : 0 < width) (turn : Nat → σ → σ) (state : σ) :
    (∃ fuel final, loop unfinished width bound (fun i state => .ok (.next (turn i state))) fuel 0
        state = .ok final) ↔ bound < width := by
  constructor
  · rintro ⟨fuel, final, done⟩
    by_contra wide
    have endless : ∃ fault, loop unfinished width bound (fun i state => .ok (.next (turn i state)))
        fuel 0 state = .error fault :=
      loop_endless positive (Nat.le_of_not_lt wide)
        (fun i state _ turned => ⟨turn i state, (Except.ok.inj turned).symm⟩) positive state
    obtain ⟨fault, failed⟩ := endless
    cases failed.symm.trans done
  · intro narrow
    refine ⟨bound + 1, ?_⟩
    cases run : loop unfinished width bound (fun i state => .ok (.next (turn i state))) (bound + 1) 0
        state with
    | ok final => exact ⟨final, rfl⟩
    | error fault =>
        rcases loop_error run with rfl | ⟨i, state, failed⟩
        · exact absurd run (loop_finishes narrow (by simp) state (by omega) (by omega))
        · cases failed

end Counter
