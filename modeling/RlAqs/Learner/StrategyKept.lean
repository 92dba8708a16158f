import RlAqs.Learner.LearnersChecks
import RlAqs.Library.Runs
import Mathlib.Data.List.Sort
import Mathlib.Tactic.NormNum

/-!
The policy learners keep a mixed strategy at every vertex they are called for, whatever the
values of the actions and the pivots of the projection are.
-/

namespace RlAqs

structure Offers where
  targets : UInt16 → List UInt16
  distinct : ∀ source, (targets source).Nodup
  away : ∀ source, source ∉ targets source

theorem Offers.length_lt (offers : Offers) (source : UInt16) :
    (offers.targets source).length < 65536 := by
  have once : ((source :: offers.targets source).map UInt16.toNat).Nodup :=
    (List.nodup_cons.mpr ⟨offers.away source, offers.distinct source⟩).map
      fun _ _ same => UInt16.toNat.inj same
  have inside : (source :: offers.targets source).map UInt16.toNat ⊆ List.range 65536 := by
    intro number member
    obtain ⟨vertex, _, rfl⟩ := List.mem_map.mp member
    exact List.mem_range.mpr vertex.toNat_lt
  have fits := (once.subperm inside).length_le
  rw [List.length_map, List.length_cons, List.length_range] at fits
  omega

structure LearnerCall (offers : Offers) where
  source : UInt16
  values : Values
  offered : (values.map Prod.fst).Perm (offers.targets source)
  currentTime : ℚ
  draws : PolicyDraws

def ValidStrategy (offers : Offers) (epsilon : ℚ) (maps : EdgeMaps) (vertex : UInt16) : Prop :=
  (∀ target ∈ offers.targets vertex, epsilon ≤ maps.weight (vertex.toNat, target.toNat)) ∧
    NearOne ((offers.targets vertex).map fun target =>
      maps.weight (vertex.toNat, target.toNat)).sum

section Strategy

variable {exp : ℚ → ℚ} {sorting : Sorting} {config : PolicyConfig} {offers : Offers}

theorem LearnerCall.distinct (call : LearnerCall offers) : (call.values.map Prod.fst).Nodup :=
  call.offered.nodup_iff.mpr (offers.distinct call.source)

theorem LearnerCall.length_eq (call : LearnerCall offers) :
    call.values.length = (offers.targets call.source).length := by
  rw [← call.offered.length_eq, List.length_map]

/-! The gradient steps leave the weights alone and give one number for each action. -/

theorem feel_foldl_length (config : PolicyConfig) (mean : ℚ) (source : UInt16) (values : Values)
    (weight : Nat × Nat → ℚ) (start : EdgeMaps × List ℚ) :
    (values.foldl (fun (state : EdgeMaps × List ℚ) value =>
      let edge := edgeTo source value
      let felt := GradientPolicyLearner.feel config (value.2 - mean) state.1 edge
      (felt, state.2 ++ [weight edge + config.eta * felt.emotion edge])) start).2.length =
        start.2.length + values.length := by
  induction values generalizing start with
  | nil => rfl
  | cons value rest ih =>
      rw [List.foldl_cons, ih]
      simp only [List.length_append, List.length_cons, List.length_nil]
      omega

theorem feel_foldl_weight (config : PolicyConfig) (mean : ℚ) (source : UInt16) (values : Values)
    (weight : Nat × Nat → ℚ) (start : EdgeMaps × List ℚ) :
    (values.foldl (fun (state : EdgeMaps × List ℚ) value =>
      let edge := edgeTo source value
      let felt := GradientPolicyLearner.feel config (value.2 - mean) state.1 edge
      (felt, state.2 ++ [weight edge + config.eta * felt.emotion edge])) start).1.weight =
        start.1.weight := by
  induction values generalizing start with
  | nil => rfl
  | cons value rest ih =>
      rw [List.foldl_cons, ih]
      rfl

theorem decay_foldl_weight (exp : ℚ → ℚ) (config : PolicyConfig) (currentTime : ℚ)
    (source : UInt16) (values : Values) (maps : EdgeMaps) :
    (values.foldl (fun maps value => GradientPolicyLearner.decay exp config currentTime maps
      (edgeTo source value)) maps).weight = maps.weight := by
  induction values generalizing maps with
  | nil => rfl
  | cons value rest ih =>
      rw [List.foldl_cons, ih]
      rfl

theorem gradient_length (exp : ℚ → ℚ) (config : PolicyConfig) (learner : Learner) (currentTime : ℚ)
    (maps : EdgeMaps) (source : UInt16) (values : Values) :
    (learner.gradient exp config currentTime maps source values).2.length = values.length := by
  cases learner with
  | weightedPolicy => simp [Learner.gradient, WeightedPolicyLearner.gradient]
  | fairAction => simp [Learner.gradient, FairActionLearner.gradient]
  | gradientPolicy =>
      simp only [Learner.gradient, GradientPolicyLearner.gradient]
      rw [feel_foldl_length, List.length_nil, Nat.zero_add]

theorem gradient_weight (exp : ℚ → ℚ) (config : PolicyConfig) (learner : Learner) (currentTime : ℚ)
    (maps : EdgeMaps) (source : UInt16) (values : Values) :
    (learner.gradient exp config currentTime maps source values).1.weight = maps.weight := by
  cases learner with
  | weightedPolicy => rfl
  | fairAction => rfl
  | gradientPolicy =>
      simp only [Learner.gradient, GradientPolicyLearner.gradient]
      rw [feel_foldl_weight, decay_foldl_weight]

theorem call_eq_learn (learner : Learner) (currentTime : ℚ) :
    learner.call exp sorting config currentTime =
      learn (learner.gradient exp config currentTime) sorting config := by
  cases learner <;> rfl

theorem learn_many {gradient : EdgeMaps → UInt16 → Values → EdgeMaps × List ℚ} {maps : EdgeMaps}
    {source : UInt16} {values : Values} (many : 2 ≤ values.length) (draws : PolicyDraws) :
    learn gradient sorting config maps source values draws =
      (strategy config.epsilon (gradient maps source values).2 draws.pivots).map fun weights =>
        ((gradient maps source values).1.setWeights source ((values.map Prod.fst).zip weights),
          select draws.uniform (sorting.sort ((values.map Prod.fst).zip weights))) := by
  match values with
  | [] => simp at many
  | [_] => simp at many
  | _ :: _ :: _ => rfl

/-! One call. -/

theorem zip_weights_map {values : Values} {weights : List ℚ} (length : weights.length = values.length) :
    ((values.map Prod.fst).zip weights).map Prod.fst = values.map Prod.fst :=
  List.map_fst_zip (by rw [List.length_map, length])

theorem setWeights_map (maps : EdgeMaps) (source : UInt16) {probabilities : Values}
    (distinct : (probabilities.map Prod.fst).Nodup) :
    (probabilities.map Prod.fst).map (fun target =>
      (maps.setWeights source probabilities).weight (source.toNat, target.toNat)) =
        probabilities.map Prod.snd := by
  rw [List.map_map]
  apply List.map_congr_left
  intro value member
  exact setWeights_mem maps source distinct member

theorem LearnerCall.valid (call : LearnerCall offers) (maps : EdgeMaps) {weights : List ℚ}
    (length : weights.length = call.values.length) (each : ∀ x ∈ weights, config.epsilon ≤ x)
    (near : NearOne weights.sum) :
    ValidStrategy offers config.epsilon
      (maps.setWeights call.source ((call.values.map Prod.fst).zip weights)) call.source := by
  have firsts := zip_weights_map length
  have distinct : (((call.values.map Prod.fst).zip weights).map Prod.fst).Nodup := by
    rw [firsts]
    exact call.distinct
  have seconds : ((call.values.map Prod.fst).zip weights).map Prod.snd = weights :=
    List.map_snd_zip (by rw [List.length_map, length])
  constructor
  · intro target listed
    have member : target ∈ ((call.values.map Prod.fst).zip weights).map Prod.fst := by
      rw [firsts]
      exact call.offered.mem_iff.mpr listed
    obtain ⟨value, inside, rfl⟩ := List.mem_map.mp member
    have stored := setWeights_mem maps call.source distinct inside
    rw [edgeTo] at stored
    rw [stored]
    apply each
    rw [← seconds]
    exact List.mem_map.mpr ⟨value, inside, rfl⟩
  · have sum := (call.offered.map fun target =>
      (maps.setWeights call.source ((call.values.map Prod.fst).zip weights)).weight
        (call.source.toNat, target.toNat)).sum_eq
    have stored := setWeights_map maps call.source distinct
    rw [firsts, seconds] at stored
    rw [stored] at sum
    rw [← sum]
    exact near

structure Settled (config : PolicyConfig) (call : LearnerCall offers) (before after : EdgeMaps)
    (action : UInt16) : Prop where
  offered : offers.targets call.source ≠ [] → action ∈ offers.targets call.source
  valid : 2 ≤ (offers.targets call.source).length → 0 ≤ config.epsilon →
    config.epsilon ≤ 1 / (offers.targets call.source).length →
      ValidStrategy offers config.epsilon after call.source
  others : ∀ vertex ≠ call.source, ∀ target : UInt16,
    after.weight (vertex.toNat, target.toNat) = before.weight (vertex.toNat, target.toNat)

theorem LearnerCall.select_offered (call : LearnerCall offers) (sorting : Sorting)
    (some_value : call.values ≠ []) {strategy : List ℚ}
    (size : strategy.length = call.values.length) :
    select call.draws.uniform (sorting.sort ((call.values.map Prod.fst).zip strategy)) ∈
      offers.targets call.source := by
  have firsts := zip_weights_map size
  have sorted := sorting.sort_perm ((call.values.map Prod.fst).zip strategy)
  have some_sorted : sorting.sort ((call.values.map Prod.fst).zip strategy) ≠ [] := by
    intro empty
    rw [empty] at sorted
    rw [List.nil_perm.mp sorted] at firsts
    exact some_value (List.map_eq_nil_iff.mp firsts.symm)
  have chosen := select_mem call.draws.uniform some_sorted
  rw [(sorted.map Prod.fst).mem_iff, firsts, call.offered.mem_iff] at chosen
  exact chosen

theorem learn_few {gradient : EdgeMaps → UInt16 → Values → EdgeMaps × List ℚ}
    (call : LearnerCall offers) (maps : EdgeMaps) (few : ¬2 ≤ call.values.length) :
    ∃ after action, learn gradient sorting config maps call.source call.values call.draws =
      some (after, action) ∧ Settled config call maps after action := by
  have length := call.length_eq
  match shape : call.values with
  | [] =>
      have none : offers.targets call.source = [] := by
        rw [← List.length_eq_zero_iff, ← length, shape]
        rfl
      exact ⟨maps, 0, rfl, fun some_target => absurd none some_target, fun two => by omega,
        fun _ _ _ => rfl⟩
  | [only] =>
      refine ⟨maps, only.1, rfl, ?_, fun two => by omega, fun _ _ _ => rfl⟩
      intro _
      rw [← call.offered.mem_iff, shape]
      exact List.mem_singleton_self only.1
  | first :: second :: rest =>
      rw [shape] at few
      simp at few

theorem call_settled (exp : ℚ → ℚ) (sorting : Sorting) (learner : Learner)
    (call : LearnerCall offers) (maps : EdgeMaps) :
    ∃ after action, learner.call exp sorting config call.currentTime maps call.source call.values
      call.draws = some (after, action) ∧ Settled config call maps after action := by
  rw [call_eq_learn]
  by_cases many : 2 ≤ call.values.length
  · rw [learn_many many]
    generalize step : learner.gradient exp config call.currentTime maps call.source call.values =
      stepped
    have steps := gradient_length exp config learner call.currentTime maps call.source
      call.values
    have kept := gradient_weight exp config learner call.currentTime maps call.source
      call.values
    rw [step] at steps kept
    have length := call.length_eq
    have short := offers.length_lt call.source
    obtain ⟨normal, computed, size, nonneg, near⟩ := strategy_total config.epsilon
      (List.length_pos_iff.mp (by omega : 0 < stepped.2.length)) (by omega) call.draws.pivots
    have size' : (squeeze config.epsilon normal).length = call.values.length := by
      rw [length_squeeze, size, steps]
    have some_value : call.values ≠ [] := List.length_pos_iff.mp (by omega)
    refine ⟨_, _, by rw [computed]; rfl, ?_, ?_, ?_⟩
    · exact fun _ => call.select_offered sorting some_value size'
    · intro _ low high
      have some_normal : normal ≠ [] := List.length_pos_iff.mp (by omega)
      have high' : config.epsilon ≤ 1 / normal.length := by
        rw [size, steps, length]
        exact high
      obtain ⟨each, near'⟩ := squeeze_spec some_normal nonneg near low high'
      exact call.valid stepped.1 size' each near'
    · intro vertex other target
      rw [setWeights_other, kept]
      intro value _ same
      exact other (UInt16.toNat.inj (Prod.mk.inj same).1).symm
  · exact learn_few call maps many

/-! Any number of calls. -/

def learnStep (exp : ℚ → ℚ) (sorting : Sorting) (config : PolicyConfig) (learner : Learner)
    (maps : EdgeMaps) (call : LearnerCall offers) : Option EdgeMaps :=
  (learner.call exp sorting config call.currentTime maps call.source call.values
    call.draws).map Prod.fst

theorem ValidStrategy.kept {vertex : UInt16} {before after : EdgeMaps}
    (valid : ValidStrategy offers config.epsilon before vertex)
    (same : ∀ target : UInt16,
      after.weight (vertex.toNat, target.toNat) = before.weight (vertex.toNat, target.toNat)) :
    ValidStrategy offers config.epsilon after vertex := by
  unfold ValidStrategy at valid ⊢
  simpa only [same] using valid

def AllValid (offers : Offers) (config : PolicyConfig) (called : List UInt16)
    (maps : EdgeMaps) : Prop :=
  ∀ vertex ∈ called, 2 ≤ (offers.targets vertex).length → 0 ≤ config.epsilon →
    config.epsilon ≤ 1 / (offers.targets vertex).length →
      ValidStrategy offers config.epsilon maps vertex

theorem AllValid.step {called : List UInt16} {before after : EdgeMaps} {action : UInt16}
    {call : LearnerCall offers} (all : AllValid offers config called before)
    (settled : Settled config call before after action) :
    AllValid offers config (call.source :: called) after := by
  intro vertex member two low high
  by_cases here : vertex = call.source
  · rw [here] at two high ⊢
    exact settled.valid two low high
  · have earlier := (List.mem_cons.mp member).resolve_left here
    exact (all vertex earlier two low high).kept (settled.others vertex here)

theorem run_allValid (exp : ℚ → ℚ) (sorting : Sorting) (learner : Learner) {called : List UInt16}
    (calls : List (LearnerCall offers)) {maps : EdgeMaps} (all : AllValid offers config called maps) :
    ∃ final, Runs.run (learnStep exp sorting config learner) maps calls = some final ∧
      AllValid offers config ((calls.map LearnerCall.source).reverse ++ called) final := by
  induction calls generalizing called maps with
  | nil => exact ⟨maps, rfl, all⟩
  | cons call rest ih =>
      obtain ⟨after, action, done, settled⟩ := call_settled exp sorting learner call maps
      obtain ⟨final, ran, later⟩ := ih (all.step settled)
      refine ⟨final, ?_, ?_⟩
      · rw [Runs.run_cons, learnStep, done]
        exact ran
      · simpa using later

/-- After any number of calls the next one divides by no zero and leaves valid strategies. -/
theorem run_keeps_strategy (exp : ℚ → ℚ) (sorting : Sorting) (config : PolicyConfig)
    (learner : Learner) (offers : Offers) (maps : EdgeMaps) (calls : List (LearnerCall offers))
    (call : LearnerCall offers) (many : 2 ≤ (offers.targets call.source).length) :
    ∃ before after action,
      Runs.run (learnStep exp sorting config learner) maps calls = some before ∧
      learner.call exp sorting config call.currentTime before call.source call.values
        call.draws = some (after, action) ∧
      (∃ s rho projected,
        let gradient := (learner.gradient exp config call.currentTime before call.source
          call.values).2
        Simplex.pivotLoop gradient 1 gradient.length call.draws.pivots
          (List.range gradient.length) 0 0 = some (s, rho) ∧ 1 ≤ rho ∧
        Simplex.projectionDuchi gradient 1 0 call.draws.pivots = some projected ∧
        0 < projected.sum) ∧
      action ∈ offers.targets call.source ∧
      ∀ vertex ∈ call.source :: calls.map LearnerCall.source,
        2 ≤ (offers.targets vertex).length → 0 ≤ config.epsilon →
          config.epsilon ≤ 1 / (offers.targets vertex).length →
            ValidStrategy offers config.epsilon after vertex := by
  have none : AllValid offers config [] maps := fun vertex member => by cases member
  obtain ⟨before, ran, all⟩ := run_allValid exp sorting learner calls none
  obtain ⟨after, action, done, settled⟩ := call_settled exp sorting learner call before
  have length := gradient_length exp config learner call.currentTime before call.source call.values
  have size := call.length_eq
  have short := offers.length_lt call.source
  have some_gradient : (learner.gradient exp config call.currentTime before call.source
      call.values).2 ≠ [] := List.length_pos_iff.mp (by omega)
  obtain ⟨s, rho, projected, looped, least, projection, _, _, sum⟩ :=
    Simplex.projectionDuchi_spec one_pos some_gradient (by omega) call.draws.pivots
  refine ⟨before, after, action, ran, done,
    ⟨s, rho, projected, looped, least, projection, lt_of_lt_of_le one_pos sum⟩, ?_, ?_⟩
  · exact settled.offered (List.length_pos_iff.mp (by omega))
  · intro vertex member
    apply all.step settled vertex
    simpa using member

end Strategy

def insertionSorting : Sorting where
  sort values := values.insertionSort fun first second => second.2 ≤ first.2
  sort_perm values := values.perm_insertionSort _
  sort_descending values := by
    have total : Std.Total fun first second : UInt16 × ℚ => second.2 ≤ first.2 :=
      ⟨fun first second => le_total second.2 first.2⟩
    have trans : IsTrans (UInt16 × ℚ) fun first second => second.2 ≤ first.2 :=
      ⟨fun _ _ _ left right => le_trans right left⟩
    exact values.pairwise_insertionSort _

def forkOffers : Offers where
  targets source := if source = 0 then [1, 2] else []
  distinct source := by split <;> decide
  away source := by
    split
    · rename_i root
      subst root
      decide
    · simp

def forkCall : LearnerCall forkOffers where
  source := 0
  values := [(2, -7), (1, 5)]
  offered := by decide
  currentTime := 3
  draws := { uniform := 1 / 2, pivots := fun _ => 1 }

def forkConfig : PolicyConfig where
  epsilon := 1 / 10
  eta := 1 / 2
  aNeg := 1
  aPos := 1
  rNeg := -1
  rPos := -1

def forkMaps : EdgeMaps where
  weight _ := 1 / 2
  emotion _ := 0
  rMin _ := 0
  rMax _ := 0
  ePos _ := 0
  eNeg _ := 0
  index edge := edge.2
  lastTime _ := 0

theorem run_keeps_strategy_fork :
    ∃ before after action,
      Runs.run (learnStep id insertionSorting forkConfig .gradientPolicy) forkMaps [forkCall] =
        some before ∧
      Learner.gradientPolicy.call id insertionSorting forkConfig 3 before 0 [(2, -7), (1, 5)]
        forkCall.draws = some (after, action) ∧ action ∈ [1, 2] ∧
      ValidStrategy forkOffers (1 / 10) after 0 := by
  obtain ⟨before, after, action, ran, done, _, chosen, valid⟩ :=
    run_keeps_strategy id insertionSorting forkConfig .gradientPolicy forkOffers forkMaps
      [forkCall] forkCall (by decide)
  refine ⟨before, after, action, ran, done, chosen, ?_⟩
  apply valid 0 List.mem_cons_self (by decide)
  · norm_num [forkConfig]
  · norm_num [forkConfig, forkOffers]

end RlAqs
