import RlAqs.Neural.TrainingCore
import RlAqs.Neural.WeightLayout

/-!
The loops over all weights in three classes agree on their order. Trying weights changes what the
network shows and not what it weighs.
-/

namespace RlAqs

def Shape.Links (shape : Shape) : Weight → Prop
  | .inputHidden i j => i ≤ shape.numInputs ∧ j < shape.numHidden
  | .hiddenOutput j k => j ≤ shape.numHidden ∧ k < shape.numOutputs

theorem Shape.mem_layout (shape : Shape) (weight : Weight) :
    weight ∈ shape.layout ↔ shape.Links weight := by
  cases weight with
  | inputHidden i j => rw [shape.mem_layout_inputHidden, Nat.lt_succ_iff, Links]
  | hiddenOutput j k => rw [shape.mem_layout_hiddenOutput, Nat.lt_succ_iff, Links]

namespace FeedforwardNetwork

variable {K : Type*}

section

variable [One K]

theorem setWeight_local :
    PointWrites.Local (FeedforwardNetwork.weight (K := K)) setWeight fun _ value => value := by
  intro network key value other
  cases key <;> cases other <;> simp [setWeight, weight, assign_apply]

def neurons (network : FeedforwardNetwork K) : Shape × (Nat → K) × (Nat → K) × (Nat → K) :=
  (network.shape, network.inputNeurons, network.hiddenNeurons, network.outputNeurons)

theorem run_setWeight_neurons (writes : List (Weight × K)) (network : FeedforwardNetwork K) :
    (PointWrites.run setWeight writes network).neurons = network.neurons := by
  refine PointWrites.run_kept (fun network key value => ?_) writes network
  cases key <;> rfl

theorem run_setWeight_back (network shown : FeedforwardNetwork K) (layout : List Weight)
    (distinct : layout.Nodup) (agrees : ∀ other, other ∉ layout → shown.weight other =
      network.weight other) (other : Weight) :
    (PointWrites.run setWeight (layout.zip (layout.map network.weight)) shown).weight other =
      network.weight other := by
  by_cases member : other ∈ layout
  · have all := PointWrites.run_keys setWeight_local distinct (layout.map network.weight)
      (List.length_map _).ge shown
    have written : layout.map (PointWrites.run setWeight (layout.zip (layout.map network.weight))
        shown).weight = layout.map network.weight := by
      rw [all, List.zipWith_map, List.zipWith_self]
    exact List.map_inj_left.mp written other member
  · rw [PointWrites.run_other setWeight_local layout member, agrees other member]

end

variable [Semiring K]

theorem addWeight_local (rate : K) :
    PointWrites.Local (FeedforwardNetwork.weight (K := K))
      (fun network weight direction => network.addWeight weight (rate * direction))
      fun weight direction => weight + rate * direction := by
  intro network key value other
  cases key with
  | inputHidden i j =>
      cases other with
      | inputHidden a b =>
          simp only [addWeight, weight, assign_apply, Weight.inputHidden.injEq]
          split
          · rename_i same
            rw [same.1, same.2]
          · rfl
      | hiddenOutput a b => simp [addWeight, weight]
  | hiddenOutput j k =>
      cases other with
      | inputHidden a b => simp [addWeight, weight]
      | hiddenOutput a b =>
          simp only [addWeight, weight, assign_apply, Weight.hiddenOutput.injEq]
          split
          · rename_i same
            rw [same.1, same.2]
          · rfl

section

variable (network : FeedforwardNetwork K) (few : network.shape.free < 65536) (weights : List K)
include few

theorem setWeights_getWeights (all : weights.length = network.shape.free) :
    ∃ trial, network.setWeights weights = some trial ∧ trial.neurons = network.neurons ∧
      trial.getWeights = some weights := by
  have neurons := run_setWeight_neurons (network.shape.layout.zip weights) network
  have shape : (PointWrites.run setWeight (network.shape.layout.zip weights) network).shape =
      network.shape := congrArg Prod.fst neurons
  have length : network.shape.layout.length = weights.length :=
    network.shape.layout_length.trans all.symm
  refine ⟨_, ?_, neurons, ?_⟩
  · rw [setWeights, network.shape.distribute_eq few, if_pos all.ge]
  · rw [getWeights_eq, shape, if_pos few,
      PointWrites.run_keys setWeight_local network.shape.layout_nodup weights length.le network,
      List.zipWith_map_left, ← List.map_uncurry_zip_eq_zipWith]
    exact congrArg some (List.map_snd_zip length.ge)

end

theorem present_inputNeurons (activation activationOutput : Activation K)
    (network : FeedforwardNetwork K) :
    (network.present activation activationOutput network.inputNeurons).inputNeurons =
      network.inputNeurons := by
  funext i
  refine (fill_apply network.shape.numInputs network.inputNeurons network.inputNeurons i).trans ?_
  exact ite_self _

end FeedforwardNetwork

section Tried

variable {K : Type*} [Field K] [DecidableEq K]
variable (activation activationOutput : Activation K) (mse : MSE K)
variable (network : FeedforwardNetwork K) (weights : List K) (targets : Nat → K)

/-- The error is that of the network with the other weights. What it showed stays. -/
theorem MSE.potentialError_tried (few : network.shape.free < 65536)
    (enough : network.shape.free ≤ weights.length) :
    ∃ trial after, network.setWeights weights = some trial ∧ trial.neurons = network.neurons ∧
      mse.potentialError activation activationOutput network weights targets =
        some (mse.policy.error targets
          (trial.present activation activationOutput trial.inputNeurons).outputNeurons
          trial.shape.numOutputs, after) ∧
      after.weight = network.weight ∧
      after.neurons = (trial.present activation activationOutput trial.inputNeurons).neurons := by
  let trial := PointWrites.run FeedforwardNetwork.setWeight (network.shape.layout.zip weights) network
  let shown := trial.present activation activationOutput trial.inputNeurons
  have neurons : trial.neurons = network.neurons := network.run_setWeight_neurons _
  have shape : trial.shape = network.shape := congrArg Prod.fst neurons
  have tried : network.setWeights weights = some trial := by
    rw [FeedforwardNetwork.setWeights, network.shape.distribute_eq few, if_pos enough]
  have own : network.getWeights = some (network.shape.layout.map network.weight) := by
    rw [network.getWeights_eq, if_pos few]
  let after := PointWrites.run FeedforwardNetwork.setWeight
    (network.shape.layout.zip (network.shape.layout.map network.weight)) shown
  have back : shown.setWeights (network.shape.layout.map network.weight) = some after := by
    have same : shown.shape = network.shape := shape
    rw [FeedforwardNetwork.setWeights, same, network.shape.distribute_eq few, if_pos]
    rw [List.length_map, network.shape.layout_length]
  refine ⟨trial, after, tried, neurons, ?_, ?_, shown.run_setWeight_neurons _⟩
  · rw [potentialError, own, Option.bind_eq_bind, Option.bind_some, tried]
    simp only [Option.bind_eq_bind, Option.bind_some]
    rw [show trial.present activation activationOutput trial.inputNeurons = shown from rfl, back]
    rfl
  · funext other
    exact network.run_setWeight_back shown _ network.shape.layout_nodup
      (fun other missing => PointWrites.run_other FeedforwardNetwork.setWeight_local _ missing _ _)
      other

/-- The call returns where 16 bits count the weights and the vector has one for each. The weights and
the inputs are as they were; hidden and output neurons are what the other weights show. -/
theorem MSE.potentialError_leaves :
    ((mse.potentialError activation activationOutput network weights targets).isSome ↔
        network.shape.free < 65536 ∧ network.shape.free ≤ weights.length) ∧
      ∀ error after,
        mse.potentialError activation activationOutput network weights targets =
          some (error, after) →
        ∃ trial, network.setWeights weights = some trial ∧
          after.shape = network.shape ∧ after.weight = network.weight ∧
          after.inputNeurons = network.inputNeurons ∧
          after.hiddenNeurons =
            (trial.present activation activationOutput network.inputNeurons).hiddenNeurons ∧
          after.outputNeurons =
            (trial.present activation activationOutput network.inputNeurons).outputNeurons := by
  by_cases inside : network.shape.free < 65536 ∧ network.shape.free ≤ weights.length
  · obtain ⟨trial, after, tried, neurons, result, weight, shown⟩ := potentialError_tried activation
      activationOutput mse network weights targets inside.1 inside.2
    have inputs : trial.inputNeurons = network.inputNeurons :=
      congrArg (fun parts => parts.2.1) neurons
    rw [result]
    refine ⟨iff_of_true rfl inside, ?_⟩
    rintro error other ⟨⟩
    have again := trial.present_inputNeurons activation activationOutput
    rw [inputs] at shown again
    refine ⟨trial, tried, ?_, weight, ?_, ?_, ?_⟩
    · exact (congrArg Prod.fst shown).trans (congrArg Prod.fst neurons)
    · exact (congrArg (fun parts => parts.2.1) shown).trans again
    · exact congrArg (fun parts => parts.2.2.1) shown
    · exact congrArg (fun parts => parts.2.2.2) shown
  · have fails : mse.potentialError activation activationOutput network weights targets = none := by
      rw [potentialError, network.getWeights_eq]
      split
      · rename_i few
        rw [Option.bind_eq_bind, Option.bind_some, FeedforwardNetwork.setWeights,
          network.shape.distribute_eq few, if_neg fun enough => inside ⟨few, enough⟩]
        rfl
      · rfl
    rw [fails]
    refine ⟨iff_of_false Bool.false_ne_true inside, fun error after found => ?_⟩
    exact absurd found.symm (Option.some_ne_none _)

end Tried

namespace ConjugateGradient

variable {K : Type*} [Field K]

theorem updateWeights_getWeights (trainer : ConjugateGradient K) (optimalTrainingRate : K)
    (few : trainer.network.shape.free < 65536) :
    (trainer.updateWeights optimalTrainingRate).bind (fun network => network.getWeights) =
      some (List.zipWith (fun weight direction => weight + optimalTrainingRate * direction)
        (trainer.network.shape.layout.map trainer.network.weight) trainer.trainingDirection) := by
  have length : trainer.trainingDirection.length = trainer.network.shape.free := by
    rw [trainer.trainingDirection_length, Shape.getNumFree_eq, Nat.mod_eq_of_lt few]
  have shape : (PointWrites.run (fun (network : FeedforwardNetwork K) weight direction =>
      network.addWeight weight (optimalTrainingRate * direction))
        (trainer.network.shape.layout.zip trainer.trainingDirection) trainer.network).shape =
      trainer.network.shape :=
    PointWrites.run_kept (fun network weight direction => by cases weight <;> rfl) _ _
  rw [updateWeights, Shape.distribute_eq _ few, if_pos length.ge, Option.bind_some,
    FeedforwardNetwork.getWeights_eq, shape, if_pos few]
  refine congrArg some (PointWrites.run_keys (FeedforwardNetwork.addWeight_local _)
    trainer.network.shape.layout_nodup _ ?_ _)
  rw [length, Shape.layout_length]

/-- One order for all loops: it passes each weight once, the two lists are read in it, a vector that
is tried or added is written in it. -/
theorem layout_consistent [DecidableEq K] (activation activationOutput : Activation K)
    (trainer : ConjugateGradient K) (few : trainer.network.shape.free < 65536)
    (weights : List K) (all : weights.length = trainer.network.shape.free) (targets : Nat → K)
    (optimalTrainingRate : K) :
    trainer.network.shape.getNumFree = trainer.network.shape.free ∧
      trainer.network.shape.layout.Nodup ∧
      (∀ weight, weight ∈ trainer.network.shape.layout ↔ trainer.network.shape.Links weight) ∧
      trainer.network.getWeights =
        some (trainer.network.shape.layout.map trainer.network.weight) ∧
      trainer.objective.getGradient trainer.network.shape =
        some (trainer.network.shape.layout.map trainer.objective.gradient) ∧
      (∃ trial : FeedforwardNetwork K, trial.neurons = trainer.network.neurons ∧ trial.getWeights = some weights ∧
        (trainer.objective.potentialError activation activationOutput trainer.network weights
            targets).map Prod.fst =
          some (trainer.objective.policy.error targets
            (trial.present activation activationOutput trial.inputNeurons).outputNeurons
            trial.shape.numOutputs)) ∧
      ∀ current, trainer.network.getWeights = some current →
        (trainer.updateWeights optimalTrainingRate).bind (fun network => network.getWeights) =
          some (List.zipWith (fun weight direction => weight + optimalTrainingRate * direction)
            current trainer.trainingDirection) := by
  have own : trainer.network.getWeights =
      some (trainer.network.shape.layout.map trainer.network.weight) := by
    rw [FeedforwardNetwork.getWeights_eq, if_pos few]
  refine ⟨?_, Shape.layout_nodup _, Shape.mem_layout _, own, ?_, ?_, ?_⟩
  · rw [Shape.getNumFree_eq, Nat.mod_eq_of_lt few]
  · rw [MSE.getGradient, Shape.collect_eq, if_pos few]
  · obtain ⟨trial, tried, neurons, held⟩ := trainer.network.setWeights_getWeights few weights all
    obtain ⟨other, after, set, _, result, _⟩ := trainer.objective.potentialError_tried activation
      activationOutput trainer.network weights targets few all.ge
    cases tried.symm.trans set
    rw [result]
    exact ⟨trial, neurons, held, rfl⟩
  · intro current found
    cases own.symm.trans found
    exact trainer.updateWeights_getWeights optimalTrainingRate few

end ConjugateGradient

section Silent

theorem one_at_one : (if (1 : Nat) = 1 then (1 : ℚ) else 0) = 1 := rfl

def FeedforwardNetwork.silent : FeedforwardNetwork ℚ where
  shape := Shape.single
  inputNeurons i := if i = 1 then 1 else 0
  hiddenNeurons j := if j = 1 then 1 else 0
  outputNeurons _ := 0
  weightsInputHidden _ _ := 0
  weightsHiddenOutput _ _ := 0
  inputBias := one_at_one
  hiddenBias := one_at_one

def ConjugateGradient.tilted : ConjugateGradient ℚ where
  network := .silent
  objective := .fresh (.default .fresh)
  errtol := 0
  isFirst := true
  gradientOld := [0, 0, 0, 0]
  trainingDirection := [1, 2, 3, 4]
  gradientOld_length := rfl
  trainingDirection_length := rfl

theorem ConjugateGradient.layout_consistent_tilted :
    (tilted.updateWeights (1 / 2)).bind (fun network => network.getWeights) =
      some [1 / 2, 1, 3 / 2, 2] := by
  have all := layout_consistent .identity .identity tilted (by decide) [1, 1, 1, 1] rfl
    (fun _ => 0) (1 / 2)
  refine (all.2.2.2.2.2.2 _ all.2.2.2.1).trans ?_
  decide +kernel

theorem MSE.potentialError_leaves_silent :
    ∃ error after,
      (MSE.fresh (.default .fresh)).potentialError .identity .identity .silent [1, 1, 1, 1]
        (fun _ => 0) = some (error, after) ∧ after.weight = FeedforwardNetwork.silent.weight := by
  obtain ⟨returns, leaves⟩ := potentialError_leaves .identity .identity
    (MSE.fresh (.default .fresh)) .silent [1, 1, 1, 1] fun _ => 0
  obtain ⟨⟨error, after⟩, found⟩ := Option.isSome_iff_exists.mp (returns.mpr (by decide))
  obtain ⟨trial, _, _, weight, _⟩ := leaves error after found
  exact ⟨error, after, found, weight⟩

theorem MSE.potentialError_shows :
    ((MSE.fresh (.default .fresh)).potentialError .identity .identity .silent [1, 1, 1, 1]
        (fun _ => 0)).map (fun (_, after) => (after.hiddenNeurons 0, after.outputNeurons 0)) =
      some (1, 2) ∧
    (FeedforwardNetwork.silent.hiddenNeurons 0, FeedforwardNetwork.silent.outputNeurons 0) =
      (0, 0) := by
  decide +kernel

end Silent

end RlAqs
