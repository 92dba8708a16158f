import RlAqs.Neural.ErrorAlong
import RlAqs.Neural.TrainingStart
import RlAqs.Neural.WeightOrder

/-!
The direction `train` hands to the line search. The stored gradient is the negative one, and the
direction is turned against it: so the error grows along it, and the search has to go backwards.
-/

namespace RlAqs

theorem exists_values {α β : Type*} [DecidableEq α] [Zero β] {keys : List α}
    (distinct : keys.Nodup) {values : List β} (same : values.length = keys.length) :
    ∃ value : α → β, keys.map value = values ∧ ∀ key, key ∉ keys → value key = 0 := by
  induction keys generalizing values with
  | nil => exact ⟨fun _ => 0, (List.eq_nil_of_length_eq_zero same).symm, fun _ _ => rfl⟩
  | cons key keys ih =>
      cases values with
      | nil => cases same
      | cons first values =>
          obtain ⟨missing, distinct⟩ := List.nodup_cons.mp distinct
          obtain ⟨value, listed, outside⟩ := ih distinct (Nat.succ.inj same)
          refine ⟨Function.update value key first, ?_, fun other absent => ?_⟩
          · rw [List.map_cons, Function.update_self, ← listed]
            refine congrArg _ (List.map_congr_left fun other member => ?_)
            have apart : other ≠ key := fun found => missing (by rwa [found] at member)
            exact Function.update_of_ne apart _ _
          · rw [List.mem_cons, not_or] at absent
            rw [Function.update_of_ne absent.1, outside other absent.2]

namespace Vector

theorem dotproduct_map {α K : Type*} [Ring K] {keys : List α} (few : keys.length < 8)
    (first second : α → K) :
    dotproduct keys.length (keys.map first) (keys.map second) =
      some (keys.map fun key => first key * second key).sum := by
  have listed (value : α → K) :
      keys.map value = List.ofFn fun i : Fin keys.length => value keys[i] := by
    conv_lhs => rw [← List.ofFn_get keys, List.map_ofFn]
    rfl
  rw [listed first, listed second, listed fun key => first key * second key, List.sum_ofFn]
  refine (dotproduct_eq_iff _ _).mpr ?_
  rw [← sum_term_passed, (visited_eq_iff _).mpr few, Finset.Ico_self, Finset.sum_empty]

end Vector

namespace FeedforwardNetwork

variable {K : Type*} [Semiring K]

omit [Semiring K] in
theorem fill_held (count : Nat) (value array : Nat → K) (held : ∀ i < count, value i = array i) :
    fill count value array = array := by
  funext i
  rw [fill_apply]
  split
  · exact held i ‹_›
  · rfl

theorem present_again (activation activationOutput : Activation K) (network : FeedforwardNetwork K)
    (inputs : Nat → K) :
    let shown := network.present activation activationOutput inputs
    shown.present activation activationOutput shown.inputNeurons = shown := by
  intro shown
  have inputNeurons : fill shown.shape.numInputs shown.inputNeurons shown.inputNeurons =
      shown.inputNeurons := fill_held _ _ _ fun _ _ => rfl
  have hiddenNeurons : fill shown.shape.numHidden
      (fun j => activation.activate (shown.hiddenNet shown.inputNeurons j)) shown.hiddenNeurons =
        shown.hiddenNeurons := by
    refine fill_held _ _ _ fun j below => ?_
    have set : shown.hiddenNeurons j = _ :=
      (fill_apply network.shape.numHidden _ network.hiddenNeurons j).trans (if_pos below)
    rw [set]
    rfl
  have outputNeurons : fill shown.shape.numOutputs
      (fun k => activationOutput.activate (shown.outputNet shown.hiddenNeurons k))
        shown.outputNeurons = shown.outputNeurons := by
    refine fill_held _ _ _ fun k below => ?_
    have set : shown.outputNeurons k = _ :=
      (fill_apply network.shape.numOutputs _ network.outputNeurons k).trans (if_pos below)
    rw [set]
    rfl
  refine eq_of_neurons ?_ rfl
  simp only [neurons, present, Prod.mk.injEq, true_and]
  rw [inputNeurons]
  refine ⟨rfl, hiddenNeurons, ?_⟩
  rw [hiddenNeurons, outputNeurons]

theorem setWeights_moved (network : FeedforwardNetwork K) (few : network.shape.free < 65536)
    {direction : Weight → K} (outside : ∀ weight, weight ∉ network.shape.layout → direction weight = 0)
    (rate : K) :
    network.setWeights (List.zipWith (fun weight along => weight + rate * along)
      (network.shape.layout.map network.weight) (network.shape.layout.map direction)) =
        some (network.moved direction rate) := by
  have length : (List.zipWith (fun weight along => weight + rate * along)
      (network.shape.layout.map network.weight) (network.shape.layout.map direction)).length =
        network.shape.layout.length := by simp
  rw [setWeights, network.shape.distribute_eq few, if_pos (by rw [length, Shape.layout_length])]
  refine congrArg some (eq_of_neurons (run_setWeight_neurons _ network) ?_)
  funext weight
  rw [moved_weight]
  by_cases member : weight ∈ network.shape.layout
  · have all := PointWrites.run_keys setWeight_local network.shape.layout_nodup _ length.ge network
    rw [List.zipWith_map, List.zipWith_self] at all ⊢
    rw [List.zipWith_map, List.zipWith_self] at all
    exact List.map_inj_left.mp all weight member
  · rw [PointWrites.run_other setWeight_local _ member, outside weight member]
    simp

end FeedforwardNetwork

theorem LossPolicy.error_squares {K : Type*} [Field K] [DecidableEq K] (policy : LossPolicy K)
    (targets : Nat → K) (size : Nat) :
    ∃ (recorded : K) (count : Nat), ∀ outputs : Nat → K, policy.error targets outputs size =
      meanOf (recorded + addSquares targets outputs size 0) count := by
  cases policy with
  | default policy =>
      refine ⟨policy.sse, (policy.size + 1).toNat, fun outputs => ?_⟩
      rw [← addSquares_eq]
      rfl
  | slidingWindow policy =>
      refine ⟨policy.buffer.sum, (policy.buffer.length + 1) % 2 ^ 32, fun outputs => ?_⟩
      rw [← addSquares_eq]
      rfl

theorem addSquares_squaredError (activation activationOutput : Activation ℝ)
    (network : FeedforwardNetwork ℝ) (inputs targets : Nat → ℝ) :
    addSquares targets (network.present activation activationOutput inputs).outputNeurons
        network.shape.numOutputs 0 =
      2 * squaredError activation activationOutput network inputs targets := by
  have sums : addSquares targets (network.present activation activationOutput inputs).outputNeurons
      network.shape.numOutputs 0 =
      sumUpTo network.shape.numOutputs fun k =>
        (targets k - (network.present activation activationOutput inputs).outputNeurons k) *
          (targets k - (network.present activation activationOutput inputs).outputNeurons k) := rfl
  rw [sums, sumUpTo_eq, squaredError]
  simp only [pow_two]
  ring

namespace ConjugateGradient

section

variable {K : Type*} [Field K] [LinearOrder K] {activation activationOutput : Activation K}
  {trainer : ConjugateGradient K} {targets : Nat → K} {objective : MSE K} {error : Option K}
  {weights direction : List K}

/-- The direction is turned round where the computed slope is not negative. -/
theorem prepare_direction
    (reached : trainer.prepare activation activationOutput targets =
      some (.search objective error weights direction)) :
    let gradient := trainer.network.shape.layout.map objective.gradient
    ∃ before slope,
      objective = MSE.calcGradient activation activationOutput trainer.network targets
        (trainer.objective.addError targets trainer.network.outputNeurons
          trainer.network.shape.numOutputs).2 ∧
      (trainer.isFirst = true → before = gradient.map (- ·)) ∧
      before.length = trainer.network.shape.free ∧
      Vector.dotproduct trainer.network.shape.free gradient before = some slope ∧
      direction = if slope ≥ 0 then gradient.map (- ·) else before := by
  have few := (prepare_search reached).1
  have free : trainer.network.shape.getNumFree = trainer.network.shape.free := by
    rw [Shape.getNumFree_eq, Nat.mod_eq_of_lt few]
  have remembered := trainer.trainingDirection_length
  simp only [prepare] at reached
  split at reached
  · cases reached
  simp only [Option.bind_eq_bind, Option.bind_eq_some_iff, Option.pure_def, Option.some_inj,
    Prepared.search.injEq] at reached
  obtain ⟨gradient, collected, slope, product, own, _, rfl, _, _, rfl⟩ := reached
  rw [MSE.getGradient, Shape.collect_eq, if_pos few, Option.some_inj] at collected
  subst collected
  rw [free] at product
  refine ⟨_, slope, rfl, fun first => if_pos first, ?_, product, rfl⟩
  split
  · rw [List.length_map, List.length_map, Shape.layout_length]
  · rw [getTrainingDirection, List.length_zipWith, List.length_map, Shape.layout_length, remembered,
      free, Nat.min_self]

end

/-- Against the gradient, a direction loses what the gradient has along it. -/
theorem sum_squares (layout : List Weight) (gradient : Weight → ℝ) :
    0 ≤ (layout.map fun weight => gradient weight * gradient weight).sum ∧
      ((layout.map fun weight => gradient weight * gradient weight).sum = 0 →
        ∀ weight ∈ layout, gradient weight = 0) := by
  induction layout with
  | nil => simp
  | cons first rest ih =>
      have square := mul_self_nonneg (gradient first)
      rw [List.map_cons, List.sum_cons]
      refine ⟨add_nonneg square ih.1, fun zero weight member => ?_⟩
      have here : gradient first * gradient first = 0 := by linarith [ih.1]
      have later := ih.2 (by linarith)
      rcases List.mem_cons.mp member with rfl | member
      · exact mul_self_eq_zero.mp here
      · exact later weight member

section

variable {activation activationOutput : Activation ℝ} {trainer : ConjugateGradient ℝ}
  {targets : Nat → ℝ} {objective : MSE ℝ} {error : Option ℝ} {weights direction : List ℝ}

theorem prepare_along
    (reached : trainer.prepare activation activationOutput targets =
      some (.search objective error weights direction))
    (exact : trainer.isFirst = true ∨ trainer.network.shape.free < 8) :
    ∃ along : Weight → ℝ, trainer.network.shape.layout.map along = direction ∧
      (∀ weight, weight ∉ trainer.network.shape.layout → along weight = 0) ∧
      (trainer.network.shape.layout.map fun weight =>
        objective.gradient weight * along weight).sum ≤ 0 ∧
      ((trainer.network.shape.layout.map fun weight =>
        objective.gradient weight * along weight).sum = 0 →
          ∀ weight ∈ trainer.network.shape.layout, objective.gradient weight = 0) := by
  obtain ⟨before, slope, _, first, length, product, turned⟩ := prepare_direction reached
  have listed : direction.length = trainer.network.shape.layout.length := by
    rw [turned]
    split
    · rw [List.length_map, List.length_map]
    · rw [length, Shape.layout_length]
  obtain ⟨along, values, outside⟩ := exists_values trainer.network.shape.layout_nodup listed
  refine ⟨along, values, outside, ?_⟩
  obtain ⟨squares, none⟩ := sum_squares trainer.network.shape.layout objective.gradient
  by_cases reversed : direction =
      (trainer.network.shape.layout.map objective.gradient).map (- ·)
  · have opposite : ∀ weight ∈ trainer.network.shape.layout,
        along weight = -objective.gradient weight := by
      rw [← values, List.map_map] at reversed
      exact List.map_inj_left.mp reversed
    have loses : trainer.network.shape.layout.map (fun weight =>
        objective.gradient weight * along weight) =
        (trainer.network.shape.layout.map fun weight =>
          objective.gradient weight * objective.gradient weight).map (- ·) := by
      rw [List.map_map]
      refine List.map_congr_left fun weight member => ?_
      rw [opposite weight member, mul_neg]
      rfl
    rw [loses, ← List.sum_neg]
    exact ⟨neg_nonpos.mpr squares, fun zero => none (neg_eq_zero.mp zero)⟩
  · have kept : direction = before ∧ slope < 0 := by
      by_cases positive : slope ≥ 0
      · exact absurd (by rw [turned, if_pos positive]) reversed
      · exact ⟨by rw [turned, if_neg positive], not_le.mp positive⟩
    have few : trainer.network.shape.layout.length < 8 := by
      rw [Shape.layout_length]
      refine exact.resolve_left fun isFirst => reversed ?_
      rw [kept.1, first isFirst]
    have sum := Vector.dotproduct_map few objective.gradient along
    rw [values, kept.1, Shape.layout_length, product, Option.some_inj] at sum
    rw [← sum]
    exact ⟨kept.2.le, fun zero => absurd zero kept.2.ne⟩

/-- The line search is handed a direction along which the error it measures does not fall: its
slope at no step is not negative, and zero only where no weight has one. For eight weights and
more this is known of the first call only, as the slope is computed from a part of them. -/
theorem search_uphill {origin : FeedforwardNetwork ℝ} {inputs : Nat → ℝ}
    (slopes : ∀ x, HasDerivAt activation.activate (activation.deriv x) x)
    (slopesOutput : ∀ x, HasDerivAt activationOutput.activate (activationOutput.deriv x) x)
    (presented : trainer.network = origin.present activation activationOutput inputs)
    (reached : trainer.prepare activation activationOutput targets =
      some (.search objective error weights direction))
    (exact : trainer.isFirst = true ∨ trainer.network.shape.free < 8)
    {current : ℝ}
    (measured : (objective.potentialError activation activationOutput trainer.network weights
      targets).map Prod.fst = some (some current)) :
    ∃ (tried : ℝ → ℝ) (slope : ℝ),
      (∀ rate, (objective.potentialError activation activationOutput trainer.network
          (List.zipWith (fun weight along => weight + along * rate) weights direction)
          targets).map Prod.fst = some (some (tried rate))) ∧
      HasDerivAt tried slope 0 ∧ 0 ≤ slope ∧
      (slope = 0 → ∀ weight ∈ trainer.network.shape.layout, objective.gradient weight = 0) := by
  obtain ⟨few, own, _, _⟩ := prepare_search reached
  obtain ⟨_, _, gradient, _⟩ := prepare_direction reached
  obtain ⟨along, values, outside, loses, flat⟩ := prepare_along reached exact
  obtain ⟨recorded, count, policy⟩ := objective.policy.error_squares targets
    trainer.network.shape.numOutputs
  have again : trainer.network.present activation activationOutput trainer.network.inputNeurons =
      trainer.network := by
    rw [presented]
    exact origin.present_again activation activationOutput inputs
  have counted : (count : ℝ) ≠ 0 := by
    intro zero
    rw [own, MSE.potentialError_own activation activationOutput _ _ _ few, Option.map_some,
      Option.some_inj, policy, meanOf, if_pos zero] at measured
    cases measured
  have positive : (0 : ℝ) < count := lt_of_le_of_ne (Nat.cast_nonneg count) counted.symm
  let network := trainer.network
  let descends := descent activation activationOutput network network.inputNeurons targets
    (trainer.objective.addError targets network.outputNeurons network.shape.numOutputs).2 along
  have stored : descends = (network.shape.layout.map fun weight =>
      objective.gradient weight * along weight).sum := by
    simp only [descends, descent, network, again, gradient]
  have falls := error_along network network.inputNeurons targets along
    (trainer.objective.addError targets network.outputNeurons network.shape.numOutputs).2 slopes
    slopesOutput
  refine ⟨fun rate => (recorded + 2 * squaredError activation activationOutput
    (network.moved along rate) network.inputNeurons targets) / count, 2 * -descends / count,
    fun rate => ?_, ((falls.const_mul 2).const_add recorded).div_const _, ?_, fun zero => ?_⟩
  · have listed : List.zipWith (fun weight step => weight + step * rate) weights direction =
        List.zipWith (fun weight step => weight + rate * step)
          (network.shape.layout.map network.weight) (network.shape.layout.map along) := by
      rw [own, ← values]
      simp only [network, mul_comm]
    have length : network.shape.free ≤ (List.zipWith (fun weight step => weight + rate * step)
        (network.shape.layout.map network.weight) (network.shape.layout.map along)).length := by
      rw [List.length_zipWith, List.length_map, List.length_map, Shape.layout_length, Nat.min_self]
    obtain ⟨trial, after, set, _, result, _⟩ := objective.potentialError_tried activation
      activationOutput network _ targets few length
    obtain rfl := Option.some_inj.mp ((network.setWeights_moved few outside rate).symm.trans set)
    rw [listed, result, Option.map_some]
    refine congrArg some ((policy _).trans ?_)
    rw [meanOf, if_neg counted]
    have squares := addSquares_squaredError activation activationOutput (network.moved along rate)
      network.inputNeurons targets
    exact congrArg (fun sum => some ((recorded + sum) / (count : ℝ))) squares
  · rw [stored]
    have gains : 0 ≤ 2 * -(network.shape.layout.map fun weight =>
        objective.gradient weight * along weight).sum :=
      mul_nonneg zero_le_two (neg_nonneg.mpr loses)
    exact div_nonneg gains positive.le
  · refine flat ?_
    rw [div_eq_zero_iff, or_iff_left counted, stored] at zero
    linarith

end

noncomputable def untrained : ConjugateGradient ℝ :=
  fresh (chain.present .identity .identity fun _ => 1) (.fresh (.default .fresh)) (1 / 1000)

theorem untrained_output : untrained.network.outputNeurons 0 = 0 := by
  norm_num [untrained, fresh, chain, Shape.single, FeedforwardNetwork.present,
    FeedforwardNetwork.hiddenNet, FeedforwardNetwork.outputNet, Activation.identity, sumUpTo, fill,
    List.range_succ]

theorem untrained_squares : addSquares (fun _ => 2) untrained.network.outputNeurons 1 0 = (4 : ℝ) := by
  norm_num [addSquares, untrained_output, List.range_succ]

theorem search_uphill_untrained :
    ∃ objective error weights direction,
      untrained.prepare .identity .identity (fun _ => 2) =
          some (.search objective error weights direction) ∧
        ∃ (tried : ℝ → ℝ) (slope : ℝ),
          (∀ rate, (objective.potentialError .identity .identity untrained.network
            (List.zipWith (fun weight along => weight + along * rate) weights direction)
            fun _ => 2).map Prod.fst = some (some (tried rate))) ∧
          HasDerivAt tried slope 0 ∧ 0 ≤ slope := by
  have added : (untrained.objective.policy.addError (fun _ => 2) untrained.network.outputNeurons
      untrained.network.shape.numOutputs).1 = some 4 := by
    change meanOf (addSquares (fun _ => 2) untrained.network.outputNeurons 1 0) ((1 : Nat) : ℝ) = _
    rw [untrained_squares]
    norm_num [meanOf]
  obtain ⟨objective, error, weights, direction, reached⟩ := prepare_reaches .identity .identity
    untrained (fun _ => 2) (by decide) (by rw [added]; norm_num [untrained, fresh])
  obtain ⟨few, own, policy, _⟩ := prepare_search reached
  have measured : (objective.potentialError .identity .identity untrained.network weights
      fun _ => 2).map Prod.fst = some (some 4) := by
    have recorded : objective.policy = _ := congrArg Prod.snd policy
    rw [own, MSE.potentialError_own _ _ _ _ _ few, Option.map_some, recorded]
    have again : untrained.network.present .identity .identity untrained.network.inputNeurons =
        untrained.network := chain.present_again .identity .identity fun _ => 1
    rw [again]
    change some (meanOf (addSquares (fun _ => 2) untrained.network.outputNeurons 1
      (addSquares (fun _ => 2) untrained.network.outputNeurons 1 0)) ((2 : Nat) : ℝ)) = _
    rw [addSquares_eq, untrained_squares]
    norm_num [meanOf]
  obtain ⟨tried, slope, agrees, derivative, uphill, _⟩ := search_uphill Activation.identity_deriv
    Activation.identity_deriv rfl reached (.inl rfl) measured
  exact ⟨objective, error, weights, direction, reached, tried, slope, agrees, derivative, uphill⟩

end ConjugateGradient

end RlAqs
