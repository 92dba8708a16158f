import RlAqs.Neural.Backpropagation
import RlAqs.Neural.WeightOrder

/-!
The slope of the squared error when all weights move at once along a direction: what
`calc_gradient` stores is also what a step over all weights changes, to first order.
-/

namespace RlAqs

namespace FeedforwardNetwork

@[simp]
theorem moved_zero {K : Type*} [Semiring K] (network : FeedforwardNetwork K)
    (direction : Weight → K) : network.moved direction 0 = network := by
  simp [moved]

theorem moved_weight {K : Type*} [Semiring K] (network : FeedforwardNetwork K)
    (direction : Weight → K) (rate : K) (weight : Weight) :
    (network.moved direction rate).weight weight = network.weight weight + rate * direction weight := by
  cases weight <;> rfl

theorem eq_of_neurons {K : Type*} [One K] {network other : FeedforwardNetwork K}
    (neurons : network.neurons = other.neurons)
    (weights : network.weight = other.weight) : network = other := by
  have inputHidden : network.weightsInputHidden = other.weightsInputHidden := by
    funext i j
    exact congrFun weights (.inputHidden i j)
  have hiddenOutput : network.weightsHiddenOutput = other.weightsHiddenOutput := by
    funext j k
    exact congrFun weights (.hiddenOutput j k)
  cases network
  cases other
  simp only [FeedforwardNetwork.neurons, Prod.mk.injEq] at neurons
  obtain ⟨rfl, rfl, rfl, rfl⟩ := neurons
  cases inputHidden
  cases hiddenOutput
  rfl

end FeedforwardNetwork

/-! Sums over all weights, as the loops over the layers add them. -/

section

variable {K : Type*} [AddCommMonoid K]

theorem nested_sum (link : Nat → Nat → Weight) (value : Weight → K) (inner outer : Nat) :
    (((List.range outer).flatMap fun j => (List.range inner).map fun i => link i j).map
      value).sum =
      ∑ j ∈ Finset.range outer, ∑ i ∈ Finset.range inner, value (link i j) := by
  have row (j : Nat) : (((List.range inner).map fun i => link i j).map value).sum =
      ∑ i ∈ Finset.range inner, value (link i j) := by
    induction inner with
    | zero => rfl
    | succ inner ih =>
        rw [List.range_succ, List.map_append, List.map_append, List.sum_append, ih,
          Finset.sum_range_succ]
        simp
  induction outer with
  | zero => rfl
  | succ outer ih =>
      rw [List.range_succ, List.flatMap_append, List.map_append, List.sum_append, ih,
        Finset.sum_range_succ, List.flatMap_singleton, row]

theorem Shape.layout_sum (shape : Shape) (value : Weight → K) :
    (shape.layout.map value).sum =
      ∑ j ∈ Finset.range shape.numHidden, ∑ i ∈ Finset.range (shape.numInputs + 1),
        value (.inputHidden i j) +
      ∑ k ∈ Finset.range shape.numOutputs, ∑ j ∈ Finset.range (shape.numHidden + 1),
        value (.hiddenOutput j k) := by
  rw [Shape.layout, List.map_append, List.sum_append, nested_sum, nested_sum]

end

section

variable {activation activationOutput : Activation ℝ} (network : FeedforwardNetwork ℝ)
  (inputs targets : Nat → ℝ) (direction : Weight → ℝ)

theorem netAlong_hasDerivAt (count : Nat) {factors : Nat → ℝ → ℝ} {rates : Nat → ℝ}
    (entries directions : Nat → ℝ)
    (moving : ∀ a < count, HasDerivAt (factors a) (rates a) 0) :
    HasDerivAt
      (fun rate => sumUpTo count fun a => factors a rate * (entries a + rate * directions a))
      (∑ a ∈ Finset.range count, (rates a * entries a + factors a 0 * directions a)) 0 := by
  have terms : ∀ a ∈ Finset.range count,
      HasDerivAt (fun rate => factors a rate * (entries a + rate * directions a))
        (rates a * entries a + factors a 0 * directions a) 0 := by
    intro a member
    have weight : HasDerivAt (fun rate : ℝ => entries a + rate * directions a) (directions a) 0 := by
      simpa using ((hasDerivAt_id (0 : ℝ)).mul_const (directions a)).const_add (entries a)
    refine ((moving a (Finset.mem_range.mp member)).mul weight).congr_deriv ?_
    ring
  have total := HasDerivAt.fun_sum terms
  simpa only [sumUpTo_eq] using total

/-- The rate at which a hidden neuron changes. The bias does not. -/
def hiddenRate (activation activationOutput : Activation ℝ) (network : FeedforwardNetwork ℝ)
    (inputs : Nat → ℝ) (direction : Weight → ℝ) (j : Nat) : ℝ :=
  let shown := network.present activation activationOutput inputs
  if j < network.shape.numHidden then
    activation.deriv (network.hiddenNet shown.inputNeurons j) *
      ∑ i ∈ Finset.range (network.shape.numInputs + 1),
        shown.inputNeurons i * direction (.inputHidden i j)
  else 0

variable (activationOutput) in
theorem hiddenAlong_hasDerivAt
    (slopes : ∀ x, HasDerivAt activation.activate (activation.deriv x) x) (j : Nat) :
    HasDerivAt
      (fun rate => ((network.moved direction rate).present activation activationOutput
        inputs).hiddenNeurons j)
      (hiddenRate activation activationOutput network inputs direction j) 0 := by
  have shown (rate : ℝ) : ((network.moved direction rate).present activation activationOutput
      inputs).inputNeurons = (network.present activation activationOutput inputs).inputNeurons := rfl
  simp only [present_hidden, shown, hiddenRate]
  by_cases below : j < network.shape.numHidden
  · have net : HasDerivAt
        (fun rate => (network.moved direction rate).hiddenNet
          (network.present activation activationOutput inputs).inputNeurons j)
        (∑ i ∈ Finset.range (network.shape.numInputs + 1),
          (network.present activation activationOutput inputs).inputNeurons i *
            direction (.inputHidden i j)) 0 := by
      refine HasDerivAt.congr_deriv (netAlong_hasDerivAt (network.shape.numInputs + 1)
        (fun i => network.weightsInputHidden i j) (fun i => direction (.inputHidden i j))
        fun i _ => hasDerivAt_const (0 : ℝ)
          ((network.present activation activationOutput inputs).inputNeurons i)) ?_
      simp
    have composed := (slopes _).comp (0 : ℝ) net
    rw [FeedforwardNetwork.moved_zero] at composed
    have same (rate : ℝ) : (network.moved direction rate).shape = network.shape := rfl
    simp only [same, below, if_true]
    exact composed
  · have same (rate : ℝ) : (network.moved direction rate).shape = network.shape := rfl
    simp only [same, below, if_false]
    exact hasDerivAt_const (0 : ℝ) (network.hiddenNeurons j)

def descent (activation activationOutput : Activation ℝ) (network : FeedforwardNetwork ℝ)
    (inputs targets : Nat → ℝ) (mse : MSE ℝ) (direction : Weight → ℝ) : ℝ :=
  (network.shape.layout.map fun weight =>
    (MSE.calcGradient activation activationOutput
      (network.present activation activationOutput inputs) targets mse).gradient weight *
        direction weight).sum

theorem calcGradient_inputHidden_present (mse : MSE ℝ) {i j : Nat}
    (inside : i < network.shape.numInputs + 1) (hidden : j < network.shape.numHidden) :
    (MSE.calcGradient activation activationOutput
        (network.present activation activationOutput inputs) targets mse).gradient
          (.inputHidden i j) =
      activation.deriv (network.hiddenNet
          (network.present activation activationOutput inputs).inputNeurons j) *
        (∑ k ∈ Finset.range network.shape.numOutputs, network.weightsHiddenOutput j k *
          MSE.getOutputDelta activationOutput
            (network.present activation activationOutput inputs) (targets k) k) *
        (network.present activation activationOutput inputs).inputNeurons i := by
  have net : ∑ i ∈ Finset.range (network.shape.numInputs + 1), network.weightsInputHidden i j *
      (network.present activation activationOutput inputs).inputNeurons i =
      network.hiddenNet (network.present activation activationOutput inputs).inputNeurons j := by
    rw [FeedforwardNetwork.hiddenNet, sumUpTo_eq]
    exact Finset.sum_congr rfl fun i _ => mul_comm _ _
  rw [← net]
  exact calcGradient_inputHidden activation activationOutput
    (network.present activation activationOutput inputs) targets mse inside hidden

theorem descent_eq (mse : MSE ℝ) :
    descent activation activationOutput network inputs targets mse direction =
      ∑ k ∈ Finset.range network.shape.numOutputs,
        MSE.getOutputDelta activationOutput
            (network.present activation activationOutput inputs) (targets k) k *
          ∑ j ∈ Finset.range (network.shape.numHidden + 1),
            (hiddenRate activation activationOutput network inputs direction j *
                network.weightsHiddenOutput j k +
              (network.present activation activationOutput inputs).hiddenNeurons j *
                direction (.hiddenOutput j k)) := by
  simp only [Finset.sum_add_distrib, mul_add, descent, Shape.layout_sum]
  congr 1
  · simp only [Finset.mul_sum]
    conv_rhs => rw [Finset.sum_comm, Finset.sum_range_succ]
    have bias : hiddenRate activation activationOutput network inputs direction
        network.shape.numHidden = 0 := if_neg (lt_irrefl _)
    simp only [bias, zero_mul, mul_zero, Finset.sum_const_zero, add_zero]
    refine Finset.sum_congr rfl fun j member => ?_
    have hidden := Finset.mem_range.mp member
    have stored : ∀ i ∈ Finset.range (network.shape.numInputs + 1),
        (MSE.calcGradient activation activationOutput
          (network.present activation activationOutput inputs) targets mse).gradient
            (.inputHidden i j) * direction (.inputHidden i j) = _ := fun i inside => by
      rw [calcGradient_inputHidden_present network inputs targets mse (Finset.mem_range.mp inside)
        hidden, mul_assoc]
    rw [Finset.sum_congr rfl stored, ← Finset.mul_sum, hiddenRate, if_pos hidden]
    simp only [Finset.mul_sum, Finset.sum_mul]
    rw [Finset.sum_comm]
    refine Finset.sum_congr rfl fun k _ => Finset.sum_congr rfl fun i _ => ?_
    ring
  · refine Finset.sum_congr rfl fun k output => ?_
    rw [Finset.mul_sum]
    refine Finset.sum_congr rfl fun j inside => ?_
    have stored := calcGradient_hiddenOutput activation activationOutput
      (network.present activation activationOutput inputs) targets mse
      (Finset.mem_range.mp inside) (Finset.mem_range.mp output)
    rw [MSE.gradient, stored, mul_assoc]

/-- Moving all weights at once, the error falls at first by what the stored gradient has along
the direction. -/
theorem error_along (mse : MSE ℝ)
    (slopes : ∀ x, HasDerivAt activation.activate (activation.deriv x) x)
    (slopesOutput : ∀ x, HasDerivAt activationOutput.activate (activationOutput.deriv x) x) :
    HasDerivAt
      (fun rate => squaredError activation activationOutput (network.moved direction rate) inputs
        targets)
      (-descent activation activationOutput network inputs targets mse direction) 0 := by
  let shown := network.present activation activationOutput inputs
  have nets : ∀ k < network.shape.numOutputs,
      HasDerivAt
        (fun rate => (network.moved direction rate).outputNet
          ((network.moved direction rate).present activation activationOutput inputs).hiddenNeurons
          k)
        (∑ j ∈ Finset.range (network.shape.numHidden + 1),
          (hiddenRate activation activationOutput network inputs direction j *
              network.weightsHiddenOutput j k +
            shown.hiddenNeurons j * direction (.hiddenOutput j k))) 0 := by
    intro k _
    refine HasDerivAt.congr_deriv (netAlong_hasDerivAt (network.shape.numHidden + 1)
      (fun j => network.weightsHiddenOutput j k) (fun j => direction (.hiddenOutput j k))
      fun j _ => hiddenAlong_hasDerivAt activationOutput network inputs direction slopes j) ?_
    simp only [FeedforwardNetwork.moved_zero]
    rfl
  have error := error_hasDerivAt targets slopesOutput network.shape.numOutputs nets
  have same (rate : ℝ) : (network.moved direction rate).shape = network.shape := rfl
  simp only [squaredError_eq, same]
  refine error.congr_deriv ?_
  simp only [FeedforwardNetwork.moved_zero]
  have delta (k : Nat) (output : k < network.shape.numOutputs) :
      activationOutput.deriv (network.outputNet shown.hiddenNeurons k) *
        (targets k - activationOutput.activate (network.outputNet shown.hiddenNeurons k)) =
      MSE.getOutputDelta activationOutput shown (targets k) k :=
    (getOutputDelta_present activation activationOutput network inputs (targets k) output).symm
  rw [descent_eq]
  refine congrArg Neg.neg (Finset.sum_congr rfl fun k member => ?_)
  rw [← delta k (Finset.mem_range.mp member)]

end

end RlAqs
