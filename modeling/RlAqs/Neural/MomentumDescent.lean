import RlAqs.Neural.ErrorAlong
import RlAqs.Neural.MomentumCore

/-!
The weights over a whole training with momentum. Each correction is a sum of the slopes so far, the
older ones discounted, and the weights follow plain gradient descent up to the last correction.
-/

namespace RlAqs

namespace Shape

variable (shape : Shape)

theorem correctionOrder_nodup : shape.correctionOrder.Nodup := by
  apply nested_append_nodup
  · rintro a b c d ⟨⟩
    exact ⟨rfl, rfl⟩
  · rintro a b c d ⟨⟩
    exact ⟨rfl, rfl⟩
  · rintro a b c d ⟨⟩

theorem updateOrder_nodup : shape.updateOrder.Nodup := by
  apply nested_append_nodup
  · rintro a b c d ⟨⟩
    exact ⟨rfl, rfl⟩
  · rintro a b c d ⟨⟩
    exact ⟨rfl, rfl⟩
  · rintro a b c d ⟨⟩

theorem mem_correctionOrder (weight : Weight) :
    weight ∈ shape.correctionOrder ↔ weight ∈ shape.layout := by
  cases weight <;> simp [correctionOrder, layout]

theorem mem_updateOrder (weight : Weight) :
    weight ∈ shape.updateOrder ↔ weight ∈ shape.layout := by
  cases weight <;> simp [updateOrder, layout, and_comm]

end Shape

noncomputable def errorSlope (activation activationOutput : Activation ℝ)
    (network : FeedforwardNetwork ℝ) (taught : Lesson ℝ) (weight : Weight) : ℝ :=
  deriv (fun value => squaredError activation activationOutput (network.setWeight weight value)
    taught.inputs taught.targets) (network.weight weight)

section

variable {activation activationOutput : Activation ℝ} (network : FeedforwardNetwork ℝ)

theorem moved_single (weight : Weight) (rate : ℝ) :
    network.moved (Pi.single weight 1) rate =
      network.setWeight weight (network.weight weight + rate) := by
  have neurons : (network.setWeight weight (network.weight weight + rate)).neurons =
      network.neurons := by cases weight <;> rfl
  refine FeedforwardNetwork.eq_of_neurons neurons.symm ?_
  funext other
  rw [network.moved_weight, FeedforwardNetwork.setWeight_local]
  by_cases same : other = weight
  · simp [same]
  · simp [same]

theorem gradient_eq_slope (mse : MSE ℝ)
    (slopes : ∀ x, HasDerivAt activation.activate (activation.deriv x) x)
    (slopesOutput : ∀ x, HasDerivAt activationOutput.activate (activationOutput.deriv x) x)
    (taught : Lesson ℝ) {weight : Weight} (member : weight ∈ network.shape.layout) :
    (MSE.calcGradient activation activationOutput
      (network.present activation activationOutput taught.inputs) taught.targets mse).gradient
        weight = -errorSlope activation activationOutput network taught weight := by
  have along := error_along network taught.inputs taught.targets (Pi.single weight 1) mse slopes
    slopesOutput
  have only : descent activation activationOutput network taught.inputs taught.targets mse
      (Pi.single weight 1) =
      (MSE.calcGradient activation activationOutput
        (network.present activation activationOutput taught.inputs) taught.targets mse).gradient
          weight := by
    rw [descent, ← List.sum_toFinset _ network.shape.layout_nodup,
      Finset.sum_eq_single_of_mem weight (List.mem_toFinset.mpr member)]
    · simp
    · intro other _ apart
      simp [apart]
  simp only [moved_single, only] at along
  rw [← sub_self (network.weight weight)] at along
  have shifted := HasDerivAt.comp_sub_const _ _ along
  simp only [add_sub_cancel] at shifted
  rw [errorSlope, shifted.deriv, neg_neg]

/-! One lesson. -/

variable {trainer : Backpropagation ℝ} {taught : Lesson ℝ}

namespace Backpropagation

def Skips (activation activationOutput : Activation ℝ) (trainer : Backpropagation ℝ)
    (taught : Lesson ℝ) : Prop :=
  ((trainer.present activation activationOutput taught.inputs).addError taught.targets).1.any
    (· < trainer.errtol) = true

noncomputable instance (trainer : Backpropagation ℝ) (taught : Lesson ℝ) :
    Decidable (Skips activation activationOutput trainer taught) :=
  inferInstanceAs (Decidable (_ = true))

@[simp]
theorem present_weight (inputs : Nat → ℝ) :
    (trainer.network.present activation activationOutput inputs).weight = trainer.network.weight := by
  funext weight
  cases weight <;> rfl

theorem update_local (rate momentum : ℝ) :
    PointWrites.Local (fun (corrections : Weight → ℝ) weight => corrections weight)
      (fun corrections weight gradient => Function.update corrections weight
        (rate * gradient + momentum * corrections weight))
      fun correction gradient => rate * gradient + momentum * correction := by
  intro corrections weight gradient other
  refine (Function.update_apply _ _ _ _).trans ?_
  split
  · rename_i same
    rw [same]
  · rfl

theorem add_local :
    PointWrites.Local (FeedforwardNetwork.weight (K := ℝ))
      (fun network weight correction => network.addWeight weight correction)
      fun weight correction => weight + correction := by
  have one := FeedforwardNetwork.addWeight_local (1 : ℝ)
  simpa only [one_mul] using one

theorem updateWeights_weight (trainer : Backpropagation ℝ) (weight : Weight) :
    trainer.updateWeights.network.weight weight =
      if weight ∈ trainer.network.shape.layout then
        trainer.network.weight weight + trainer.corrections weight
      else trainer.network.weight weight := by
  have each := PointWrites.run_each add_local trainer.network.shape.updateOrder_nodup
    trainer.corrections trainer.network weight
  simp only [Shape.mem_updateOrder] at each
  exact each

theorem updateWeights_shape (trainer : Backpropagation ℝ) :
    trainer.updateWeights.network.shape = trainer.network.shape :=
  foldl_kept FeedforwardNetwork.shape _ (fun _ weight => by cases weight <;> rfl) _ _

structure Learned (activation activationOutput : Activation ℝ) (trainer : Backpropagation ℝ)
    (taught : Lesson ℝ) (next : Backpropagation ℝ) : Prop where
  shape : next.network.shape = trainer.network.shape
  learningRate : next.learningRate = trainer.learningRate
  momentum : next.momentum = trainer.momentum
  skipped : Skips activation activationOutput trainer taught →
    next.corrections = trainer.corrections ∧ next.network.weight = trainer.network.weight
  corrected : ¬ Skips activation activationOutput trainer taught →
    ∀ weight ∈ trainer.network.shape.layout,
      next.corrections weight = trainer.momentum * trainer.corrections weight -
          trainer.learningRate *
            errorSlope activation activationOutput trainer.network taught weight ∧
        next.network.weight weight = trainer.network.weight weight + next.corrections weight

theorem learn_learned
    (slopes : ∀ x, HasDerivAt activation.activate (activation.deriv x) x)
    (slopesOutput : ∀ x, HasDerivAt activationOutput.activate (activationOutput.deriv x) x)
    (trainer : Backpropagation ℝ) (taught : Lesson ℝ) :
    Learned activation activationOutput trainer taught
      (trainer.learn activation activationOutput taught) := by
  unfold learn train
  dsimp only
  split
  · rename_i small
    exact ⟨rfl, rfl, rfl, fun _ => ⟨rfl, present_weight taught.inputs⟩,
      fun trained => absurd small trained⟩
  rename_i large
  let shown := trainer.present activation activationOutput taught.inputs
  let gradient := MSE.calcGradient activation activationOutput shown.network taught.targets
    (shown.addError taught.targets).2
  refine ⟨updateWeights_shape _, rfl, rfl, fun small => absurd small large,
    fun _ weight member => ?_⟩
  have corrected := PointWrites.run_each
    (update_local trainer.learningRate trainer.momentum)
    trainer.network.shape.correctionOrder_nodup gradient.gradient trainer.corrections weight
  rw [if_pos ((Shape.mem_correctionOrder _ _).mpr member)] at corrected
  have slope : gradient.gradient weight =
      -errorSlope activation activationOutput trainer.network taught weight :=
    gradient_eq_slope trainer.network _ slopes slopesOutput taught member
  refine ⟨corrected.trans ?_, ?_⟩
  · rw [slope]
    ring
  · refine (updateWeights_weight _ weight).trans ((if_pos member).trans ?_)
    rw [← @present_weight activation activationOutput trainer taught.inputs]
    rfl

noncomputable def lessons (activation activationOutput : Activation ℝ) :
    Backpropagation ℝ → List (Lesson ℝ) → List (FeedforwardNetwork ℝ × Lesson ℝ)
  | _, [] => []
  | trainer, taught :: rest =>
      let later := lessons activation activationOutput
        (trainer.learn activation activationOutput taught) rest
      if Skips activation activationOutput trainer taught then later
      else (trainer.network, taught) :: later

def discounted (factor : ℝ) : List ℝ → ℝ
  | [] => 0
  | value :: rest => factor ^ rest.length * value + discounted factor rest

/-- Over any training each correction is the sum of the slopes so far, discounted by the
momentum; the weights are those of plain gradient descent with the rate divided by one minus
the momentum, up to the corrections at both ends. Skipped lessons count for nothing. -/
theorem learn_momentum
    (slopes : ∀ x, HasDerivAt activation.activate (activation.deriv x) x)
    (slopesOutput : ∀ x, HasDerivAt activationOutput.activate (activationOutput.deriv x) x)
    (trainer : Backpropagation ℝ) (taught : List (Lesson ℝ)) {weight : Weight}
    (member : weight ∈ trainer.network.shape.layout) :
    let final := taught.foldl (learn activation activationOutput) trainer
    let along := (lessons activation activationOutput trainer taught).map fun lesson =>
      errorSlope activation activationOutput lesson.1 lesson.2 weight
    final.corrections weight =
        trainer.momentum ^ along.length * trainer.corrections weight -
          trainer.learningRate * discounted trainer.momentum along ∧
      (1 - trainer.momentum) * (final.network.weight weight - trainer.network.weight weight) =
        trainer.momentum * (trainer.corrections weight - final.corrections weight) -
          trainer.learningRate * along.sum := by
  induction taught generalizing trainer with
  | nil => simp [lessons, discounted]
  | cons first rest ih =>
      have learned := learn_learned slopes slopesOutput trainer first
      have inside : weight ∈ (trainer.learn activation activationOutput first).network.shape.layout := by
        rwa [learned.shape]
      obtain ⟨corrections, weights⟩ := ih _ inside
      rw [learned.momentum, learned.learningRate] at corrections weights
      simp only [List.foldl_cons, lessons]
      by_cases skips : Skips activation activationOutput trainer first
      · obtain ⟨sameCorrections, sameWeights⟩ := learned.skipped skips
        rw [if_pos skips]
        rw [sameCorrections] at corrections weights
        rw [sameWeights] at weights
        exact ⟨corrections, weights⟩
      · obtain ⟨corrected, moved⟩ := learned.corrected skips weight member
        rw [if_neg skips, List.map_cons, List.length_cons, List.sum_cons, discounted]
        refine ⟨?_, ?_⟩
        · rw [corrections, corrected]
          ring
        · have later : (1 - trainer.momentum) *
              ((rest.foldl (learn activation activationOutput)
                (trainer.learn activation activationOutput first)).network.weight weight -
                  trainer.network.weight weight) =
              (1 - trainer.momentum) * ((rest.foldl (learn activation activationOutput)
                (trainer.learn activation activationOutput first)).network.weight weight -
                  (trainer.learn activation activationOutput first).network.weight weight) +
              (1 - trainer.momentum) *
                (trainer.learn activation activationOutput first).corrections weight := by
            rw [moved]
            ring
          rw [later, weights, corrected]
          ring

noncomputable def taughtTwice : Backpropagation ℝ :=
  fresh chain (.fresh (.default .fresh)) ((1 / 2 : ℚ) : ℝ) ((1 / 2 : ℚ) : ℝ)
    ((1 / 1000 : ℚ) : ℝ)

theorem learn_momentum_twice :
    let lesson : Lesson ℝ := ⟨fun _ => 1, fun _ => 2⟩
    let final := [lesson, lesson].foldl (learn .identity .identity) taughtTwice
    (1 - taughtTwice.momentum) *
        (final.network.weight (.hiddenOutput 0 0) - taughtTwice.network.weight (.hiddenOutput 0 0)) =
      taughtTwice.momentum *
          (taughtTwice.corrections (.hiddenOutput 0 0) - final.corrections (.hiddenOutput 0 0)) -
        taughtTwice.learningRate *
          ((lessons .identity .identity taughtTwice [lesson, lesson]).map fun lesson =>
            errorSlope .identity .identity lesson.1 lesson.2 (.hiddenOutput 0 0)).sum := by
  intro lesson final
  exact (learn_momentum Activation.identity_deriv Activation.identity_deriv taughtTwice
    [lesson, lesson] (by decide)).2

end Backpropagation

end

end RlAqs
