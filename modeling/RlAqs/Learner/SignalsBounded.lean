import RlAqs.Learner.StrategyKept

/-!
What the gradient policy learner feels for an edge. Over any number of calls its two bounds are
the extreme signals of the edge so far, and the emotion that moves the weight of the edge stays
between them, however the earlier signals fade.
-/

namespace RlAqs

open GradientPolicyLearner

def signals (mean : ℚ) (source : UInt16) (edge : Nat × Nat) (values : Values) : List ℚ :=
  ((values.filter fun value => edgeTo source value = edge).map fun value => value.2 - mean).reverse

section Signals

variable {exp : ℚ → ℚ} {sorting : Sorting} {config : PolicyConfig} {offers : Offers}
  {maps : EdgeMaps} {edge : Nat × Nat} {seen : List ℚ}

def signalStep (exp : ℚ → ℚ) (sorting : Sorting) (config : PolicyConfig)
    (state : EdgeMaps × (Nat × Nat → List ℚ)) (call : LearnerCall offers) :
    Option (EdgeMaps × (Nat × Nat → List ℚ)) :=
  (learnStep exp sorting config .gradientPolicy state.1 call).map fun maps =>
    (maps, fun edge =>
      if 2 ≤ call.values.length then
        signals (qMean state.1 call.source call.values) call.source edge call.values ++
          state.2 edge
      else state.2 edge)

structure Felt (maps : EdgeMaps) (edge : Nat × Nat) (seen : List ℚ) : Prop where
  least : maps.rMin edge = seen.foldr min 0
  most : maps.rMax edge = seen.foldr max 0
  pos : 0 ≤ maps.ePos edge
  neg : maps.eNeg edge ≤ 0
  above : maps.rMin edge ≤ maps.emotion edge
  below : maps.emotion edge ≤ maps.rMax edge

theorem foldr_min_nonpos (seen : List ℚ) : seen.foldr min 0 ≤ 0 := by
  induction seen with
  | nil => exact le_rfl
  | cons signal rest ih => exact (min_le_right _ _).trans ih

theorem foldr_max_nonneg (seen : List ℚ) : 0 ≤ seen.foldr max 0 := by
  induction seen with
  | nil => exact le_rfl
  | cons signal rest ih => exact ih.trans (le_max_right _ _)

theorem Felt.decay (felt : Felt maps edge seen) (fading : ∀ x, 0 ≤ exp x) (currentTime : ℚ)
    (other : Nat × Nat) :
    Felt (GradientPolicyLearner.decay exp config currentTime maps other) edge seen := by
  by_cases same : edge = other
  · subst same
    exact {
      least := felt.least
      most := felt.most
      pos := by simpa [GradientPolicyLearner.decay] using mul_nonneg felt.pos (fading _)
      neg := by
        simpa [GradientPolicyLearner.decay] using
          mul_nonpos_of_nonpos_of_nonneg felt.neg (fading _)
      above := felt.above
      below := felt.below }
  · exact {
      least := felt.least
      most := felt.most
      pos := by simpa [GradientPolicyLearner.decay, same] using felt.pos
      neg := by simpa [GradientPolicyLearner.decay, same] using felt.neg
      above := felt.above
      below := felt.below }

theorem Felt.feel_other (felt : Felt maps edge seen) (signal : ℚ) {other : Nat × Nat}
    (different : edge ≠ other) : Felt (feel config signal maps other) edge seen where
  least := by simpa [feel, different] using felt.least
  most := by simpa [feel, different] using felt.most
  pos := by simpa [feel, different] using felt.pos
  neg := by simpa [feel, different] using felt.neg
  above := by simpa [feel, different] using felt.above
  below := by simpa [feel, different] using felt.below

/-- The two signals that make up the emotion are cut off at the bounds, on either side of zero. -/
theorem Felt.feel_own (felt : Felt maps edge seen) (pos : 0 ≤ config.aPos) (neg : 0 ≤ config.aNeg)
    (signal : ℚ) : Felt (feel config signal maps edge) edge (signal :: seen) := by
  have least : (feel config signal maps edge).rMin edge = min signal (seen.foldr min 0) := by
    simp only [feel, Function.update_self, felt.least]
    split
    · rename_i lower
      exact (min_eq_left lower.le).symm
    · rename_i higher
      exact (min_eq_right (not_lt.mp higher)).symm
  have most : (feel config signal maps edge).rMax edge = max signal (seen.foldr max 0) := by
    simp only [feel, Function.update_self, felt.most]
    split
    · rename_i higher
      exact (max_eq_left higher.le).symm
    · rename_i lower
      exact (max_eq_right (not_lt.mp lower)).symm
  have ePos : 0 ≤ (feel config signal maps edge).ePos edge := by
    simp only [feel, Function.update_self]
    split
    · rename_i positive
      exact add_nonneg felt.pos (mul_nonneg pos positive.le)
    · exact felt.pos
  have eNeg : (feel config signal maps edge).eNeg edge ≤ 0 := by
    simp only [feel, Function.update_self]
    split
    · exact felt.neg
    · rename_i negative
      exact add_nonpos felt.neg (mul_nonpos_of_nonneg_of_nonpos neg (not_lt.mp negative))
  have low : (feel config signal maps edge).rMin edge ≤ 0 := by
    rw [least]
    exact foldr_min_nonpos (signal :: seen)
  have high : 0 ≤ (feel config signal maps edge).rMax edge := by
    rw [most]
    exact foldr_max_nonneg (signal :: seen)
  have emotion : (feel config signal maps edge).emotion edge =
      min ((feel config signal maps edge).ePos edge) ((feel config signal maps edge).rMax edge) +
        max ((feel config signal maps edge).eNeg edge)
          ((feel config signal maps edge).rMin edge) := by
    simp only [feel, Function.update_self, min_def, max_def]
    grind
  have upper := min_le_right ((feel config signal maps edge).ePos edge)
    ((feel config signal maps edge).rMax edge)
  have lower := le_max_right ((feel config signal maps edge).eNeg edge)
    ((feel config signal maps edge).rMin edge)
  have natural := le_min ePos high
  have unnatural := max_le eNeg low
  exact {
    least := least
    most := most
    pos := ePos
    neg := eNeg
    above := by linarith
    below := by linarith }

theorem Felt.decay_foldl (felt : Felt maps edge seen) (fading : ∀ x, 0 ≤ exp x) (currentTime : ℚ)
    (source : UInt16) (values : Values) :
    Felt (values.foldl (fun maps value => GradientPolicyLearner.decay exp config currentTime maps
      (edgeTo source value)) maps) edge seen := by
  induction values generalizing maps with
  | nil => exact felt
  | cons value rest ih => exact ih (felt.decay fading currentTime (edgeTo source value))

theorem Felt.feel_foldl (pos : 0 ≤ config.aPos) (neg : 0 ≤ config.aNeg) (mean : ℚ)
    (source : UInt16) (values : Values) (weight : Nat × Nat → ℚ) {start : EdgeMaps × List ℚ}
    (felt : Felt start.1 edge seen) :
    Felt (values.foldl (fun (state : EdgeMaps × List ℚ) value =>
      let edge := edgeTo source value
      let felt := feel config (value.2 - mean) state.1 edge
      (felt, state.2 ++ [weight edge + config.eta * felt.emotion edge])) start).1 edge
        (signals mean source edge values ++ seen) := by
  induction values generalizing start seen with
  | nil => exact felt
  | cons value rest ih =>
      by_cases own : edgeTo source value = edge
      · have shape : signals mean source edge (value :: rest) ++ seen =
            signals mean source edge rest ++ ((value.2 - mean) :: seen) := by
          simp [signals, own]
        rw [List.foldl_cons, shape]
        refine ih ?_
        rw [← own]
        exact Felt.feel_own (own ▸ felt) pos neg (value.2 - mean)
      · have shape : signals mean source edge (value :: rest) ++ seen =
            signals mean source edge rest ++ seen := by
          simp [signals, own]
        rw [List.foldl_cons, shape]
        exact ih (felt.feel_other (value.2 - mean) (Ne.symm own))

theorem Felt.step (pos : 0 ≤ config.aPos) (neg : 0 ≤ config.aNeg) (fading : ∀ x, 0 ≤ exp x)
    {state next : EdgeMaps × (Nat × Nat → List ℚ)} {call : LearnerCall offers}
    (felt : ∀ edge, Felt state.1 edge (state.2 edge))
    (stepped : signalStep exp sorting config state call = some next) (edge : Nat × Nat) :
    Felt next.1 edge (next.2 edge) := by
  obtain ⟨after, learnt, rfl⟩ := Option.map_eq_some_iff.mp stepped
  rw [learnStep, call_eq_learn] at learnt
  by_cases many : 2 ≤ call.values.length
  · rw [learn_many many, Option.map_map, Option.map_eq_some_iff] at learnt
    obtain ⟨weights, _, rfl⟩ := learnt
    have faded : Felt (call.values.foldl (fun maps value =>
        GradientPolicyLearner.decay exp config call.currentTime maps
          (edgeTo call.source value)) state.1) edge (state.2 edge) :=
      (felt edge).decay_foldl fading call.currentTime call.source call.values
    have started : Felt ((_, []) : EdgeMaps × List ℚ).1 edge (state.2 edge) := faded
    have felt' := Felt.feel_foldl pos neg (qMean state.1 call.source call.values) call.source
      call.values state.1.weight started
    simp only [if_pos many]
    exact ⟨felt'.least, felt'.most, felt'.pos, felt'.neg, felt'.above, felt'.below⟩
  · have same : after = state.1 := by
      rcases shape : call.values with _ | ⟨only, _ | ⟨second, rest⟩⟩
      · rw [shape] at learnt
        exact (Option.some.inj learnt).symm
      · rw [shape] at learnt
        exact (Option.some.inj learnt).symm
      · rw [shape] at many
        simp at many
    simp only [if_neg many]
    rw [same]
    exact felt edge

/-- Over any number of calls, from edges that have felt nothing: the bounds of an edge are the
extreme signals it has had, and its emotion is between them. -/
theorem run_signals (pos : 0 ≤ config.aPos) (neg : 0 ≤ config.aNeg) (fading : ∀ x, 0 ≤ exp x)
    (calm : ∀ edge, maps.rMin edge = 0 ∧ maps.rMax edge = 0 ∧ maps.ePos edge = 0 ∧
      maps.eNeg edge = 0 ∧ maps.emotion edge = 0)
    {calls : List (LearnerCall offers)} {final : EdgeMaps × (Nat × Nat → List ℚ)}
    (ran : Runs.run (signalStep exp sorting config) (maps, fun _ => []) calls = some final)
    (edge : Nat × Nat) :
    final.1.rMin edge = (final.2 edge).foldr min 0 ∧
      final.1.rMax edge = (final.2 edge).foldr max 0 ∧
      final.1.rMin edge ≤ final.1.emotion edge ∧ final.1.emotion edge ≤ final.1.rMax edge ∧
      final.1.eNeg edge ≤ 0 ∧ 0 ≤ final.1.ePos edge := by
  have fresh : ∀ edge, Felt maps edge [] := by
    intro edge
    obtain ⟨least, most, good, bad, emotion⟩ := calm edge
    refine ⟨least, most, good.ge, bad.le, ?_, ?_⟩
    · rw [least, emotion]
    · rw [most, emotion]
  have felt : ∀ edge, Felt final.1 edge (final.2 edge) :=
    Runs.run_invariant (fun state => ∀ edge, Felt state.1 edge (state.2 edge))
      (fun _ _ _ earlier stepped => Felt.step pos neg fading earlier stepped) fresh ran
  exact ⟨(felt edge).least, (felt edge).most, (felt edge).above, (felt edge).below,
    (felt edge).neg, (felt edge).pos⟩

end Signals

def lastingConfig : PolicyConfig := { forkConfig with rNeg := 0, rPos := 0 }

theorem run_signals_fork :
    ∃ final, Runs.run (signalStep (fun _ => 1) insertionSorting lastingConfig)
        (forkMaps, fun _ => []) [forkCall, forkCall] = some final ∧
      final.1.rMin (0, 2) = (final.2 (0, 2)).foldr min 0 ∧
      final.1.rMin (0, 2) ≤ final.1.emotion (0, 2) := by
  have through : (Runs.run (signalStep (fun _ => 1) insertionSorting lastingConfig)
      (forkMaps, fun _ => []) [forkCall, forkCall]).isSome = true := by
    decide +kernel
  obtain ⟨final, ran⟩ := Option.isSome_iff_exists.mp through
  have bounds := run_signals (by norm_num [lastingConfig, forkConfig])
    (by norm_num [lastingConfig, forkConfig])
    (fun _ => zero_le_one) (fun _ => ⟨rfl, rfl, rfl, rfl, rfl⟩) ran (0, 2)
  exact ⟨final, ran, bounds.1, bounds.2.2.1⟩

end RlAqs
