import RlAqs.Learner.ListingExact
import RlAqs.Learner.StrategyKept

/-!
The weights that two calls store for one list in two orders. They agree for all orders, pivots
and settings of the hooks exactly when the gradient is `ListingSafe`.
-/

namespace RlAqs

theorem exists_perm_of_map_perm {values : Values} {step : UInt16 × ℚ → ℚ} {gradient : List ℚ}
    (perm : gradient.Perm (values.map step)) :
    ∃ listed : Values, listed.Perm values ∧ listed.map step = gradient := by
  have pointwise : List.Forall₂ (fun x value => x = step value) (values.map step) values := by
    rw [List.forall₂_map_left_iff, List.forall₂_same]
    exact fun _ _ => rfl
  obtain ⟨listed, each, reordered⟩ := List.perm_comp_forall₂ perm pointwise
  refine ⟨listed, reordered, ?_⟩
  have mapped : List.Forall₂ Eq gradient (listed.map step) := List.forall₂_map_right_iff.mpr each
  rw [List.forall₂_eq_eq_eq] at mapped
  exact mapped.symm

theorem ListingSafe.finish_eq {epsilon theta : ℚ} {gradient listed : List ℚ}
    (safe : ListingSafe epsilon gradient) (some_element : gradient ≠ [])
    (threshold : Simplex.HasThreshold gradient 1 theta) (perm : listed.Perm gradient)
    (pivots : Nat → Nat) :
    ∃ other, Simplex.projectionDuchi listed 1 0 pivots = some (Simplex.cutOff listed other) ∧
      1 ≤ overhang listed other ∧
      ∀ x ∈ gradient, finish epsilon listed other x = finish epsilon gradient theta x := by
  have some_listed : listed ≠ [] := by
    rintro rfl
    exact some_element (List.nil_perm.mp perm)
  obtain ⟨chosen, s, rho, taken, complete, projection⟩ :=
    Simplex.projectionDuchi_reaches some_listed (perm.length_eq ▸ safe.short) pivots
  refine ⟨(s - 1) / rho, projection, taken.one_le_overhang, ?_⟩
  intro x inside
  rw [← finish_perm perm]
  have threshold' := Simplex.HasThreshold.perm perm threshold
  by_cases low_taken : ∃ low ∈ chosen, Simplex.Low listed 1 low
  · obtain ⟨low, member, is_low⟩ := low_taken
    rcases safe.settled with tight | none_low | hidden
    · have factor : 1 - ((listed.length : ℚ) - 1) * epsilon - epsilon = 0 := by
        rw [perm.length_eq]
        linarith
      simp only [finish, factor, zero_mul]
    · have bound := Finset.mem_range.mp (taken.chosen_subset (List.mem_toFinset.mpr member))
      have most := none_low _ (perm.mem_iff.mp (Simplex.getD_mem_list bound))
      rw [← overhang_perm perm] at most
      exact absurd is_low (not_lt.mpr most)
    · exact taken.finish_eq threshold' (Hidden.perm perm hidden) epsilon complete member is_low
        (perm.mem_iff.mpr inside)
  · have sound : ∀ index ∈ chosen, ¬Simplex.Low listed 1 index :=
      fun index member is_low => low_taken ⟨index, member, is_low⟩
    rw [taken.theta_eq threshold' sound complete]

section Stored

variable (exp : ℚ → ℚ) (sorting : Sorting) (config : PolicyConfig) (currentTime : ℚ)
  (learner : Learner) (maps : EdgeMaps) (source : UInt16) (values : Values)

def StoredAlike (listed : Values) (draws : PolicyDraws) : Prop :=
  ∃ first second,
    learner.call exp sorting config currentTime maps source values draws = some first ∧
    learner.call exp sorting config currentTime maps source listed draws = some second ∧
    ∀ value ∈ values, second.1.weight (edgeTo source value) = first.1.weight (edgeTo source value)

/-- The strategy that is learned depends neither on the order of the list nor on the hooks. -/
def ListingIndependent : Prop :=
  (∀ listed : Values, listed.Perm values → ∀ draws,
    StoredAlike exp sorting config currentTime learner maps source values listed draws) ∧
  ∀ regretTotal incentiveDeviate draws,
    StoredAlike exp sorting config currentTime learner maps source values
      (FullRLResponseHandler.hooks sorting regretTotal incentiveDeviate values) draws

def steps : List ℚ :=
  values.map fun value =>
    learner.stepped exp config currentTime maps source (qMean maps source values) value

end Stored

section Call

variable {exp : ℚ → ℚ} {config : PolicyConfig} {currentTime : ℚ} {learner : Learner}
  {maps : EdgeMaps} {source : UInt16} {values listed : Values} (sorting : Sorting)

theorem call_stores (offered : Listed learner maps source values) (many : 2 ≤ values.length)
    {theta : ℚ} (draws : PolicyDraws)
    (projection : Simplex.projectionDuchi (steps exp config currentTime learner maps source values)
      1 0 draws.pivots =
        some (Simplex.cutOff (steps exp config currentTime learner maps source values) theta))
    (least : 1 ≤ overhang (steps exp config currentTime learner maps source values) theta) :
    ∃ result, learner.call exp sorting config currentTime maps source values draws = some result ∧
      ∀ value ∈ values, result.1.weight (edgeTo source value) =
        finish config.epsilon (steps exp config currentTime learner maps source values) theta
          (learner.stepped exp config currentTime maps source (qMean maps source values) value) := by
  have gradient : (learner.gradient exp config currentTime maps source values).2 =
      steps exp config currentTime learner maps source values :=
    offered.gradient_eq exp config currentTime
  have stored : strategy config.epsilon (steps exp config currentTime learner maps source values)
      draws.pivots = some ((steps exp config currentTime learner maps source values).map
        (finish config.epsilon (steps exp config currentTime learner maps source values) theta)) :=
    strategy_eq_finish projection (by linarith)
  rw [call_eq_learn, learn_many many, gradient, stored]
  refine ⟨_, rfl, ?_⟩
  intro value member
  have zipped : (values.map Prod.fst).zip ((steps exp config currentTime learner maps source
      values).map (finish config.epsilon (steps exp config currentTime learner maps source values)
        theta)) =
      values.map fun value => (value.1, finish config.epsilon
        (steps exp config currentTime learner maps source values) theta
          (learner.stepped exp config currentTime maps source (qMean maps source values) value)) := by
    generalize finish config.epsilon (steps exp config currentTime learner maps source values)
      theta = weigh
    rw [steps, List.map_map, List.zip_map']
    rfl
  have distinct : ((values.map fun value => (value.1, finish config.epsilon
      (steps exp config currentTime learner maps source values) theta
        (learner.stepped exp config currentTime maps source (qMean maps source values)
          value))).map Prod.fst).Nodup := by
    rw [List.map_map]
    exact offered.distinct
  dsimp only
  rw [zipped]
  exact setWeights_mem _ source distinct (List.mem_map_of_mem member)

theorem steps_perm (perm : listed.Perm values) :
    steps exp config currentTime learner maps source listed =
      listed.map fun value =>
        learner.stepped exp config currentTime maps source (qMean maps source values) value := by
  rw [steps, qMean_perm perm]

theorem ListingSafe.call_stores (offered : Listed learner maps source values)
    (many : 2 ≤ values.length)
    (safe : ListingSafe config.epsilon (steps exp config currentTime learner maps source values))
    {theta : ℚ} (threshold : Simplex.HasThreshold
      (steps exp config currentTime learner maps source values) 1 theta)
    (perm : listed.Perm values) (draws : PolicyDraws) :
    ∃ result, learner.call exp sorting config currentTime maps source listed draws = some result ∧
      ∀ value ∈ values, result.1.weight (edgeTo source value) =
        finish config.epsilon (steps exp config currentTime learner maps source values) theta
          (learner.stepped exp config currentTime maps source (qMean maps source values) value) := by
  have some_element : steps exp config currentTime learner maps source values ≠ [] := by
    intro empty
    have length := congrArg List.length empty
    rw [steps, List.length_map, List.length_nil] at length
    omega
  have reordered : (steps exp config currentTime learner maps source listed).Perm
      (steps exp config currentTime learner maps source values) := by
    rw [steps_perm perm]
    exact perm.map _
  obtain ⟨other, projection, least, same⟩ :=
    safe.finish_eq some_element threshold reordered draws.pivots
  obtain ⟨result, done, stored⟩ := RlAqs.call_stores sorting (offered.perm perm)
    (perm.length_eq.symm ▸ many) draws projection least
  refine ⟨result, done, ?_⟩
  intro value member
  rw [stored value (perm.mem_iff.mpr member), qMean_perm perm]
  exact same _ (List.mem_map_of_mem member)

variable {sorting}

theorem call_short (offered : Listed learner maps source values) (many : 2 ≤ values.length)
    {draws : PolicyDraws} (alike : StoredAlike exp sorting config currentTime learner maps source
      values listed draws) :
    (steps exp config currentTime learner maps source values).length < 65536 := by
  by_contra long
  obtain ⟨first, _, done, _⟩ := alike
  have gradient : (learner.gradient exp config currentTime maps source values).2 =
      steps exp config currentTime learner maps source values :=
    offered.gradient_eq exp config currentTime
  rw [call_eq_learn, learn_many many, gradient] at done
  simp [strategy, Simplex.projectionDuchi, Simplex.indices, long] at done

variable (sorting) in
theorem stored_of_run (offered : Listed learner maps source values) (many : 2 ≤ values.length)
    {gradient : List ℚ}
    (perm : gradient.Perm (steps exp config currentTime learner maps source values)) {theta : ℚ}
    (run : Simplex.projectionDuchi gradient 1 0 (fun _ => 0) =
      some (Simplex.cutOff gradient theta)) :
    ∃ listed : Values, listed.Perm values ∧ ∃ result,
      learner.call exp sorting config currentTime maps source listed ⟨0, fun _ => 0⟩ =
        some result ∧
      ∀ value ∈ values, result.1.weight (edgeTo source value) =
        finish config.epsilon (steps exp config currentTime learner maps source values) theta
          (learner.stepped exp config currentTime maps source (qMean maps source values) value) := by
  have some_gradient : gradient ≠ [] := by
    rintro rfl
    have length := perm.length_eq
    rw [steps, List.length_map, List.length_nil] at length
    omega
  have short : gradient.length < 65536 := by
    by_contra long
    simp [Simplex.projectionDuchi, Simplex.indices, long] at run
  obtain ⟨listed, reordered, mapped⟩ := exists_perm_of_map_perm perm
  have same : steps exp config currentTime learner maps source listed = gradient := by
    rw [steps_perm reordered, mapped]
  obtain ⟨chosen, s, rho, taken, _, projection⟩ :=
    Simplex.projectionDuchi_reaches some_gradient short fun _ => 0
  have least : 1 ≤ overhang gradient theta := by
    have points := Option.some.inj (run.symm.trans projection)
    rw [overhang, points]
    exact taken.one_le_overhang
  obtain ⟨result, done, stored⟩ := call_stores sorting (offered.perm reordered)
    (reordered.length_eq.symm ▸ many) ⟨0, fun _ => 0⟩ (same.symm ▸ run) (same.symm ▸ least)
  refine ⟨listed, reordered, result, done, ?_⟩
  intro value member
  rw [stored value (reordered.mem_iff.mpr member), qMean_perm reordered, same,
    finish_perm perm]

theorem finish_of_alike (offered : Listed learner maps source values) (many : 2 ≤ values.length)
    (alike : ∀ listed : Values, listed.Perm values → ∀ draws,
      StoredAlike exp sorting config currentTime learner maps source values listed draws)
    {first second : List ℚ} {theta other x : ℚ}
    (perm : first.Perm (steps exp config currentTime learner maps source values))
    (run : Simplex.projectionDuchi first 1 0 (fun _ => 0) = some (Simplex.cutOff first other))
    (perm' : second.Perm (steps exp config currentTime learner maps source values))
    (run' : Simplex.projectionDuchi second 1 0 (fun _ => 0) = some (Simplex.cutOff second theta))
    (member : x ∈ steps exp config currentTime learner maps source values) :
    finish config.epsilon (steps exp config currentTime learner maps source values) other x =
      finish config.epsilon (steps exp config currentTime learner maps source values) theta x := by
  obtain ⟨value, inside, rfl⟩ := List.mem_map.mp member
  obtain ⟨listed, reordered, result, done, stored⟩ :=
    stored_of_run sorting offered many perm run
  obtain ⟨listed', reordered', result', done', stored'⟩ :=
    stored_of_run sorting offered many perm' run'
  obtain ⟨base, left, base_done, left_done, left_same⟩ := alike listed reordered ⟨0, fun _ => 0⟩
  obtain ⟨base', right, base_done', right_done, right_same⟩ :=
    alike listed' reordered' ⟨0, fun _ => 0⟩
  rw [done, Option.some.injEq] at left_done
  rw [done', Option.some.injEq] at right_done
  rw [base_done, Option.some.injEq] at base_done'
  subst left_done right_done base_done'
  rw [← stored value inside, ← stored' value inside, left_same value inside,
    right_same value inside]

end Call

theorem listingIndependent_iff (exp : ℚ → ℚ) (sorting : Sorting) (config : PolicyConfig)
    (currentTime : ℚ) (learner : Learner) (maps : EdgeMaps) (source : UInt16) (values : Values)
    (many : 2 ≤ values.length) (offered : Listed learner maps source values) :
    ListingIndependent exp sorting config currentTime learner maps source values ↔
      ListingSafe config.epsilon (steps exp config currentTime learner maps source values) := by
  have some_element : steps exp config currentTime learner maps source values ≠ [] := by
    intro empty
    have length := congrArg List.length empty
    rw [steps, List.length_map, List.length_nil] at length
    omega
  obtain ⟨theta, threshold⟩ := Simplex.exists_hasThreshold some_element one_pos
  constructor
  · rintro ⟨alike, _⟩
    have short := call_short offered many
      (alike values (List.Perm.refl values) ⟨0, fun _ => 0⟩)
    refine ⟨short, ?_⟩
    by_cases tight :
        (steps exp config currentTime learner maps source values).length * config.epsilon = 1
    · exact Or.inl tight
    · by_cases none_low : ∀ x ∈ steps exp config currentTime learner maps source values,
          overhang (steps exp config currentTime learner maps source values) x ≤ 1
      · exact Or.inr (Or.inl none_low)
      · simp only [not_forall, not_le] at none_low
        obtain ⟨low, inside, is_low⟩ := none_low
        obtain ⟨settled, settled_perm, settled_run⟩ := threshold.exists_high_taken short
        exact Or.inr (Or.inr (threshold.hidden_of_agree some_element short tight inside is_low
          fun listed perm other run x member =>
            finish_of_alike offered many alike perm run settled_perm settled_run member))
  · intro safe
    have alike : ∀ listed : Values, listed.Perm values → ∀ draws,
        StoredAlike exp sorting config currentTime learner maps source values listed draws := by
      intro listed perm draws
      obtain ⟨first, first_done, first_stored⟩ := safe.call_stores sorting offered many
        threshold (List.Perm.refl values) draws
      obtain ⟨second, second_done, second_stored⟩ := safe.call_stores sorting offered
        many threshold perm draws
      refine ⟨first, second, first_done, second_done, ?_⟩
      intro value member
      rw [first_stored value member, second_stored value member]
    exact ⟨alike, fun regretTotal incentiveDeviate draws =>
      alike _ (FullRLResponseHandler.hooks_perm sorting regretTotal incentiveDeviate values) draws⟩

theorem listingIndependent_iff_fork :
    ListingIndependent id insertionSorting forkConfig 3 .gradientPolicy forkMaps 0
      [(2, -7), (1, 5)] :=
  (listingIndependent_iff id insertionSorting forkConfig 3 .gradientPolicy forkMaps 0
    [(2, -7), (1, 5)] (by decide) ⟨by decide, fun _ => by decide⟩).mpr
      ⟨by decide, Or.inr (Or.inr ⟨by decide +kernel, by decide +kernel, by decide +kernel⟩)⟩

def triadConfig : PolicyConfig := { forkConfig with eta := 1 / 6 }

def triadMaps : EdgeMaps := { forkMaps with weight := fun _ => 1 / 3 }

/-- Listed by falling value everything is taken, listed by rising value only what is high. -/
theorem listingIndependent_fails :
    ¬ListingIndependent id insertionSorting triadConfig 0 .fairAction triadMaps 0
      [(1, 3), (2, 2), (3, -5)] := by
  rintro ⟨alike, _⟩
  obtain ⟨first, second, first_done, second_done, same⟩ :=
    alike [(3, -5), (2, 2), (1, 3)] (by decide) ⟨0, fun _ => 0⟩
  have falling : ((Learner.fairAction.call id insertionSorting triadConfig 0 triadMaps 0
      [(1, 3), (2, 2), (3, -5)] ⟨0, fun _ => 0⟩).map fun result => result.1.weight (0, 1)) =
        some (22 / 45) := by decide +kernel
  have rising : ((Learner.fairAction.call id insertionSorting triadConfig 0 triadMaps 0
      [(3, -5), (2, 2), (1, 3)] ⟨0, fun _ => 0⟩).map fun result => result.1.weight (0, 1)) =
        some (61 / 120) := by decide +kernel
  rw [first_done, Option.map_some, Option.some.injEq] at falling
  rw [second_done, Option.map_some, Option.some.injEq] at rising
  have one := same (1, 3) List.mem_cons_self
  have edge : edgeTo 0 (1, 3) = (0, 1) := rfl
  rw [edge, falling, rising] at one
  norm_num at one

end RlAqs
