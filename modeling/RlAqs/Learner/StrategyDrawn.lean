import RlAqs.Learner.StrategyKept
import RlAqs.Library.Roulette

/-!
The action that a policy learner returns is drawn from the strategy it leaves: every action is
chosen on an interval of draws as long as its weight is.
-/

namespace RlAqs

theorem accumulate_eq_spin (uniform : ℚ) (values : Values) (before : ℚ) :
    accumulate uniform values before = Roulette.spin uniform values before := by
  induction values generalizing before with
  | nil => rfl
  | cons value rest ih =>
      simp only [accumulate, Roulette.spin]
      rw [ih]

theorem select_eq_pick (uniform : ℚ) (probabilities : Values) :
    select uniform probabilities =
      Roulette.pick uniform probabilities (probabilities.getLastD (0, 0)).1 := by
  rw [select, accumulate_eq_spin, Roulette.pick]

section Drawn

variable {config : PolicyConfig} {offers : Offers}

def LearnerCall.drawing (call : LearnerCall offers) (uniform : ℚ) : LearnerCall offers :=
  { call with draws := { call.draws with uniform := uniform } }

theorem select_interval {probabilities : Values} (sorting : Sorting)
    (nonneg : ∀ value ∈ probabilities, 0 ≤ value.2)
    (distinct : (probabilities.map Prod.fst).Nodup) {value : UInt16 × ℚ}
    (member : value ∈ probabilities) :
    ∃ lower, 0 ≤ lower ∧ lower + value.2 ≤ Roulette.total probabilities ∧
      ∀ uniform, 0 ≤ uniform → uniform < Roulette.total probabilities →
        (select uniform (sorting.sort probabilities) = value.1 ↔
          lower ≤ uniform ∧ uniform < lower + value.2) := by
  have perm := sorting.sort_perm probabilities
  have same := Roulette.total_perm perm
  obtain ⟨lower, above, within, interval⟩ :=
    Roulette.pick_interval ((sorting.sort probabilities).getLastD (0, 0)).1
      (fun item inside => nonneg item (perm.mem_iff.mp inside))
      ((perm.map Prod.fst).nodup_iff.mpr distinct) (perm.mem_iff.mpr member)
  rw [same] at within interval
  refine ⟨lower, above, within, fun uniform order below => ?_⟩
  rw [select_eq_pick]
  exact interval uniform order below

theorem LearnerCall.strategy_eq (exp : ℚ → ℚ) (learner : Learner) (maps : EdgeMaps)
    (call : LearnerCall offers) (many : 2 ≤ (offers.targets call.source).length)
    (low : 0 ≤ config.epsilon)
    (high : config.epsilon ≤ 1 / (offers.targets call.source).length) :
    ∃ weights,
      strategy config.epsilon
        (learner.gradient exp config call.currentTime maps call.source call.values).2
        call.draws.pivots = some weights ∧
      weights.length = call.values.length ∧ (∀ x ∈ weights, config.epsilon ≤ x) ∧
      NearOne weights.sum := by
  have length := call.length_eq
  have steps := gradient_length exp config learner call.currentTime maps call.source call.values
  have short := offers.length_lt call.source
  obtain ⟨normal, computed, size, nonneg, near⟩ := strategy_total config.epsilon
    (List.length_pos_iff.mp (by omega : 0 <
      (learner.gradient exp config call.currentTime maps call.source call.values).2.length))
    (by omega) call.draws.pivots
  have some_normal : normal ≠ [] := List.length_pos_iff.mp (by omega)
  have high' : config.epsilon ≤ 1 / normal.length := by
    rw [size, steps, length]
    exact high
  obtain ⟨each, near'⟩ := squeeze_spec some_normal nonneg near low high'
  refine ⟨_, computed, ?_, each, near'⟩
  rw [length_squeeze, size, steps]

/-- Whatever the properties of the edges are: the strategy that a call leaves does not depend on
the draw, which chooses every action on an interval as long as its weight is, and this is not
below `epsilon`. -/
theorem call_draws_strategy (exp : ℚ → ℚ) (sorting : Sorting) (learner : Learner)
    (maps : EdgeMaps) (call : LearnerCall offers)
    (many : 2 ≤ (offers.targets call.source).length) (low : 0 ≤ config.epsilon)
    (high : config.epsilon ≤ 1 / (offers.targets call.source).length) :
    ∃ after total, ∃ choose : ℚ → UInt16,
      (∀ uniform, learner.call exp sorting config call.currentTime maps call.source call.values
        (call.drawing uniform).draws = some (after, choose uniform)) ∧
      total = ((offers.targets call.source).map fun target =>
        after.weight (call.source.toNat, target.toNat)).sum ∧ NearOne total ∧
      ∀ target ∈ offers.targets call.source,
        let weight := after.weight (call.source.toNat, target.toNat)
        config.epsilon ≤ weight ∧
          ∃ lower, 0 ≤ lower ∧ lower + weight ≤ total ∧
            ∀ uniform, 0 ≤ uniform → uniform < total →
              (choose uniform = target ↔ lower ≤ uniform ∧ uniform < lower + weight) := by
  have many' : 2 ≤ call.values.length := by
    rw [call.length_eq]
    exact many
  obtain ⟨weights, computed, size, each, near⟩ := call.strategy_eq exp learner maps many low high
  generalize step : learner.gradient exp config call.currentTime maps call.source call.values =
    stepped at computed
  have firsts := zip_weights_map size
  have seconds : ((call.values.map Prod.fst).zip weights).map Prod.snd = weights :=
    List.map_snd_zip (by rw [List.length_map, size])
  generalize probable : (call.values.map Prod.fst).zip weights = probabilities at firsts seconds
  have distinct : (probabilities.map Prod.fst).Nodup := by
    rw [firsts]
    exact call.distinct
  have total : ((offers.targets call.source).map fun target =>
      (stepped.1.setWeights call.source probabilities).weight
        (call.source.toNat, target.toNat)).sum = weights.sum := by
    have stored := setWeights_map stepped.1 call.source distinct
    rw [firsts, seconds] at stored
    rw [← stored]
    exact ((call.offered.map _).sum_eq).symm
  refine ⟨stepped.1.setWeights call.source probabilities, _,
    fun uniform => select uniform (sorting.sort probabilities), fun uniform => ?_, rfl, ?_, ?_⟩
  · rw [call_eq_learn, learn_many many', step]
    have drawn : strategy config.epsilon stepped.2 (call.drawing uniform).draws.pivots =
        some weights := computed
    rw [drawn, ← probable]
    rfl
  · rw [total]
    exact near
  · intro target listed
    have member : target ∈ probabilities.map Prod.fst := by
      rw [firsts]
      exact call.offered.mem_iff.mpr listed
    obtain ⟨value, inside, rfl⟩ := List.mem_map.mp member
    have stored := setWeights_mem stepped.1 call.source distinct inside
    rw [edgeTo] at stored
    have least : ∀ value ∈ probabilities, config.epsilon ≤ value.2 := fun other inside' =>
      each other.2 (seconds ▸ List.mem_map.mpr ⟨other, inside', rfl⟩)
    have interval := select_interval sorting
      (fun other inside' => low.trans (least other inside')) distinct inside
    have same : Roulette.total probabilities = weights.sum := by rw [Roulette.total, seconds]
    rw [total, ← same]
    intro weight
    rw [show weight = value.2 from stored]
    exact ⟨least value inside, interval⟩

end Drawn

theorem call_draws_strategy_fork :
    ∃ after, ∃ choose : ℚ → UInt16,
      (∀ uniform, Learner.gradientPolicy.call id insertionSorting forkConfig 3 forkMaps 0
        [(2, -7), (1, 5)] (forkCall.drawing uniform).draws = some (after, choose uniform)) ∧
      ∀ target ∈ [1, 2], (1 : ℚ) / 10 ≤ after.weight (0, UInt16.toNat target) := by
  have high : forkConfig.epsilon ≤ 1 / (forkOffers.targets forkCall.source).length := by
    norm_num [forkConfig, forkOffers, forkCall]
  have low : 0 ≤ forkConfig.epsilon := by norm_num [forkConfig]
  obtain ⟨after, total, choose, drawn, _, _, each⟩ :=
    call_draws_strategy id insertionSorting .gradientPolicy forkMaps forkCall (by decide) low high
  exact ⟨after, choose, drawn, fun target listed => (each target listed).1⟩

end RlAqs
