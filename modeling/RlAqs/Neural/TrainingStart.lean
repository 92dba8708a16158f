import RlAqs.Library.Welford
import RlAqs.Neural.TrainingCore
import RlAqs.Neural.WeightLayout
import Mathlib.Tactic.LinearCombination

/-!
The error that `train` hands to the line search as that of no step, against the potential error of
the weights as they are. The first holds the example once, the second twice.
-/

namespace RlAqs

section Loss

variable {K : Type*}

theorem addSquares_eq [Ring K] (targets outputs : Nat → K) (size : Nat) (sse : K) :
    addSquares targets outputs size sse = sse + addSquares targets outputs size 0 := by
  induction size with
  | zero => simp [addSquares]
  | succ size ih =>
      have last : ∀ sse, addSquares targets outputs (size + 1) sse =
          addSquares targets outputs size sse +
            (targets size - outputs size) * (targets size - outputs size) :=
        fun sse => foldl_range_succ _ _ _
      rw [last, last, ih, add_assoc]

variable [Field K] [LinearOrder K]

theorem meanOf_eq [IsStrictOrderedRing K] (sum : K) {count : Nat} (positive : count ≠ 0) :
    meanOf sum (count : K) = some (sum / count) := by
  rw [meanOf, if_neg (Nat.cast_ne_zero.mpr positive)]

theorem meanOf_zero (sum : K) : meanOf sum ((0 : Nat) : K) = none := by
  rw [meanOf, if_pos Nat.cast_zero]

def SlidingWindowLossPolicy.kept (policy : SlidingWindowLossPolicy K) : List K :=
  if policy.buffer.length < policy.window then policy.buffer else policy.buffer.tail

/-- The new example counts with `recorded` among the examples whose mean is `current`; no division
is by zero. -/
def LossPolicy.Level (recorded current : K) : LossPolicy K → Prop
  | default policy =>
      policy.size.toNat + 2 < 2 ^ 32 ∧
        current * (policy.size.toNat + 1 : Nat) = policy.sse + recorded
  | slidingWindow policy =>
      0 < policy.window ∧ current * (policy.kept.length + 1 : Nat) = policy.kept.sum + recorded

variable [IsStrictOrderedRing K]

theorem means_agree_iff (sum value : K) {count : Nat} (positive : count ≠ 0) :
    (∃ error, meanOf sum (count : K) = some error ∧
        meanOf (sum + value) ((count + 1 : Nat) : K) = some error) ↔ value * count = sum := by
  rw [meanOf_eq sum positive, meanOf_eq (sum + value) (Nat.succ_ne_zero count),
    ← Welford.mean_kept_iff sum value positive]
  constructor
  · rintro ⟨error, first, second⟩
    exact Option.some_inj.mp (first.trans second.symm)
  · intro same
    exact ⟨_, rfl, congrArg some same.symm⟩

variable (targets outputs fresh : Nat → K) (size : Nat)

theorem DefaultLossPolicy.addError_error_iff (policy : DefaultLossPolicy K) :
    (∃ error, (policy.addError targets outputs size).1 = some error ∧
        (policy.addError targets outputs size).2.error targets fresh size = some error) ↔
      LossPolicy.Level (addSquares targets outputs size 0) (addSquares targets fresh size 0)
        (.default policy) := by
  have once : (policy.size + 1).toNat = (policy.size.toNat + 1) % 2 ^ 32 := UInt32.toNat_add _ _
  have twice : (policy.size + 1 + 1).toNat = ((policy.size + 1).toNat + 1) % 2 ^ 32 :=
    UInt32.toNat_add _ _
  have below := policy.size.toNat_lt
  simp only [DefaultLossPolicy.addError, DefaultLossPolicy.error, LossPolicy.Level]
  rw [addSquares_eq targets outputs, addSquares_eq targets fresh]
  by_cases few : policy.size.toNat + 2 < 2 ^ 32
  · have count : (policy.size + 1).toNat = policy.size.toNat + 1 := by omega
    have next : (policy.size + 1 + 1).toNat = policy.size.toNat + 1 + 1 := by omega
    rw [count, next, means_agree_iff _ _ (Nat.succ_ne_zero _)]
    exact (and_iff_right few).symm
  · -- the count wraps to zero in the one division or in the other
    refine iff_of_false ?_ fun level => few level.1
    rintro ⟨error, first, second⟩
    by_cases wrapped : policy.size.toNat + 1 = 2 ^ 32
    · rw [show (policy.size + 1).toNat = 0 by omega, meanOf_zero] at first
      cases first
    · rw [show (policy.size + 1 + 1).toNat = 0 by omega, meanOf_zero] at second
      cases second

theorem SlidingWindowLossPolicy.addError_error_iff (policy : SlidingWindowLossPolicy K) :
    (∃ error, (policy.addError targets outputs size).1 = some error ∧
        (policy.addError targets outputs size).2.error targets fresh size = some error) ↔
      LossPolicy.Level (addSquares targets outputs size 0) (addSquares targets fresh size 0)
        (.slidingWindow policy) := by
  have fits := policy.fits
  have bounded := policy.window_lt
  simp only [SlidingWindowLossPolicy.addError, SlidingWindowLossPolicy.error, LossPolicy.Level]
  rw [addSquares_eq targets fresh]
  by_cases opened : policy.window = 0
  · -- the buffer stays empty, and the first division has nothing to divide by
    refine iff_of_false ?_ (by omega)
    rintro ⟨error, first, _⟩
    have empty : policy.buffer.length = 0 := by omega
    simp only [pushBack, opened, if_true, empty, meanOf_zero] at first
    cases first
  · have buffer : (policy.pushBack (addSquares targets outputs size 0)).buffer =
        policy.kept ++ [addSquares targets outputs size 0] := by
      simp only [pushBack, opened, if_false, kept]
      split <;> rfl
    have short : policy.kept.length < policy.window := by
      unfold kept
      split
      · assumption
      · rw [List.length_tail]
        omega
    rw [buffer, List.sum_append, List.sum_singleton, List.length_append, List.length_singleton,
      Nat.mod_eq_of_lt (by omega), means_agree_iff _ _ (Nat.succ_ne_zero _)]
    exact (and_iff_right (Nat.pos_of_ne_zero opened)).symm

theorem LossPolicy.addError_error_iff (policy : LossPolicy K) :
    (∃ error, (policy.addError targets outputs size).1 = some error ∧
        (policy.addError targets outputs size).2.error targets fresh size = some error) ↔
      policy.Level (addSquares targets outputs size 0) (addSquares targets fresh size 0) := by
  cases policy with
  | default policy => exact policy.addError_error_iff targets outputs fresh size
  | slidingWindow policy => exact policy.addError_error_iff targets outputs fresh size

end Loss

section Training

variable {K : Type*} [Field K] [LinearOrder K]
variable (activation activationOutput : Activation K)

theorem MSE.potentialError_own (mse : MSE K) (network : FeedforwardNetwork K) (targets : Nat → K)
    (few : network.shape.free < 65536) :
    mse.potentialError activation activationOutput network
        (network.shape.layout.map network.weight) targets =
      some (mse.policy.error targets
          (network.present activation activationOutput network.inputNeurons).outputNeurons
          network.shape.numOutputs,
        network.present activation activationOutput network.inputNeurons) := by
  have restored := (network.present activation activationOutput
    network.inputNeurons).setWeights_own few
  have weights : network.getWeights = some (network.shape.layout.map network.weight) := by
    rw [network.getWeights_eq, if_pos few]
  have shown : (network.present activation activationOutput network.inputNeurons).setWeights
      (network.shape.layout.map network.weight) =
        some (network.present activation activationOutput network.inputNeurons) := restored
  rw [MSE.potentialError, weights]
  simp only [Option.bind_eq_bind, Option.bind_some, network.setWeights_own few, shown]
  rfl

omit [LinearOrder K] in
theorem MSE.calcGradient_policy (network : FeedforwardNetwork K) (targets : Nat → K) (mse : MSE K) :
    (MSE.calcGradient activation activationOutput network targets mse).policy = mse.policy := by
  rw [MSE.calcGradient, foldl_kept MSE.policy (MSE.hiddenTurn activation network) fun _ _ => rfl,
    foldl_kept MSE.policy (MSE.outputTurn activationOutput network targets) fun _ _ => rfl]

namespace ConjugateGradient

variable (trainer : ConjugateGradient K) (targets : Nat → K)

variable {activation activationOutput trainer targets} in
theorem prepare_search {objective : MSE K} {error : Option K} {weights direction : List K}
    (reached : trainer.prepare activation activationOutput targets =
      some (.search objective error weights direction)) :
    trainer.network.shape.free < 65536 ∧
      weights = trainer.network.shape.layout.map trainer.network.weight ∧
      (error, objective.policy) = trainer.objective.policy.addError targets
        trainer.network.outputNeurons trainer.network.shape.numOutputs ∧
      error.any (· < trainer.errtol) = false := by
  simp only [prepare] at reached
  split at reached
  · cases reached
  · rename_i large
    simp only [Option.bind_eq_bind, Option.bind_eq_some_iff, Option.pure_def, Option.some_inj,
      Prepared.search.injEq] at reached
    obtain ⟨gradient, collected, slope, _, own, held, rfl, rfl, rfl, _⟩ := reached
    rw [trainer.network.getWeights_eq] at held
    split at held
    · rename_i few
      refine ⟨few, (Option.some_inj.mp held).symm, ?_, Bool.eq_false_iff.mpr large⟩
      rw [MSE.calcGradient_policy]
      rfl
    · cases held

theorem prepare_reaches (few : trainer.network.shape.free < 65536)
    (large : (trainer.objective.policy.addError targets trainer.network.outputNeurons
      trainer.network.shape.numOutputs).1.any (· < trainer.errtol) = false) :
    ∃ objective error weights direction,
      trainer.prepare activation activationOutput targets =
        some (.search objective error weights direction) := by
  have free : trainer.network.shape.getNumFree = trainer.network.shape.free := by
    rw [Shape.getNumFree_eq, Nat.mod_eq_of_lt few]
  have before := trainer.trainingDirection_length
  have passed : (trainer.objective.addError targets trainer.network.outputNeurons
      trainer.network.shape.numOutputs).1.any (· < trainer.errtol) = false := large
  simp only [prepare, passed, Bool.false_eq_true, if_false, Option.bind_eq_bind, MSE.getGradient,
    Shape.collect_eq, if_pos few, Option.bind_some, trainer.network.getWeights_eq]
  generalize collected : trainer.network.shape.layout.map _ = gradient
  have length : gradient.length = trainer.network.shape.getNumFree := by
    rw [← collected, List.length_map, Shape.layout_length, free]
  have sized : (if trainer.isFirst then gradient.map (- ·)
      else getTrainingDirection trainer.gradientOld gradient trainer.trainingDirection).length =
        trainer.network.shape.getNumFree := by
    split
    · rw [List.length_map, length]
    · rw [getTrainingDirection, List.length_zipWith, length, before, Nat.min_self]
  obtain ⟨slope, product⟩ := Vector.dotproduct_returns length sized
  rw [product]
  exact ⟨_, _, _, _, rfl⟩

variable [IsStrictOrderedRing K]

/-- The error that is handed on is that of the unchanged weights exactly where the mean is level:
the example counts once in the one and twice in the other. -/
theorem search_error_iff {objective : MSE K} {error : Option K} {weights direction : List K}
    (reached : trainer.prepare activation activationOutput targets =
      some (.search objective error weights direction)) :
    (∃ value, error = some value ∧
        (objective.potentialError activation activationOutput trainer.network weights targets).map
          Prod.fst = some (some value)) ↔
      trainer.objective.policy.Level
        (addSquares targets trainer.network.outputNeurons trainer.network.shape.numOutputs 0)
        (addSquares targets (trainer.network.present activation activationOutput
          trainer.network.inputNeurons).outputNeurons trainer.network.shape.numOutputs 0) := by
  obtain ⟨few, rfl, added, _⟩ := prepare_search reached
  rw [← LossPolicy.addError_error_iff, ← added,
    MSE.potentialError_own activation activationOutput objective trainer.network targets few]
  simp only [Option.map_some, Option.some_inj]

end ConjugateGradient

end Training

namespace ConjugateGradient

def trainedOnce (policy : LossPolicy ℚ) : ConjugateGradient ℚ :=
  fresh
    { shape := Shape.single
      inputNeurons := fun i => if i = 1 then 1 else 0
      hiddenNeurons := fun j => if j = 1 then 1 else 0
      outputNeurons := fun _ => 0
      weightsInputHidden := fun _ _ => 0
      weightsHiddenOutput := fun _ _ => 0
      inputBias := rfl
      hiddenBias := rfl }
    (.fresh (policy.addError (fun _ => 0) (fun _ => 0) 1).2) (1 / 1000)

theorem search_error_window :
    ∃ objective error weights direction,
      (trainedOnce (.slidingWindow ⟨1, by decide, [], by decide⟩)).prepare .identity .identity
          (fun _ => 2) = some (.search objective error weights direction) ∧
        ∃ value, error = some value ∧
          (objective.potentialError .identity .identity
            (trainedOnce (.slidingWindow ⟨1, by decide, [], by decide⟩)).network weights
              fun _ => 2).map Prod.fst = some (some value) := by
  obtain ⟨objective, error, weights, direction, reached⟩ := prepare_reaches .identity .identity
    (trainedOnce (.slidingWindow ⟨1, by decide, [], by decide⟩)) (fun _ => 2) (by decide)
    (by decide +kernel)
  exact ⟨objective, error, weights, direction, reached,
    (search_error_iff _ _ _ _ reached).mpr (And.intro (by decide +kernel) (by decide +kernel))⟩

/-- Without a window, the mean of the two examples is two, and a second look at the last one
raises it. -/
theorem search_error_apart :
    ∃ objective weights direction,
      (trainedOnce (.default .fresh)).prepare .identity .identity (fun _ => 2) =
          some (.search objective (some 2) weights direction) ∧
        (objective.potentialError .identity .identity (trainedOnce (.default .fresh)).network weights
          fun _ => 2).map Prod.fst = some (some (8 / 3)) := by
  obtain ⟨objective, error, weights, direction, reached⟩ := prepare_reaches .identity .identity
    (trainedOnce (.default .fresh)) (fun _ => 2) (by decide) (by decide +kernel)
  obtain ⟨few, rfl, added, _⟩ := prepare_search reached
  have mean : ((trainedOnce (.default .fresh)).objective.policy.addError (fun _ => 2)
      (trainedOnce (.default .fresh)).network.outputNeurons 1).1 = some 2 := by decide +kernel
  obtain rfl : error = some 2 := (congrArg Prod.fst added).trans mean
  have policy : objective.policy = _ := congrArg Prod.snd added
  refine ⟨objective, _, direction, reached, ?_⟩
  rw [MSE.potentialError_own _ _ _ _ _ few, policy]
  decide +kernel

end ConjugateGradient

end RlAqs
