import RlAqs.Neural.ActivationSlopes
import RlAqs.Neural.ObjectiveCore
import RlAqs.Neural.WeightLayout

/-!
`calc_gradient` stores the negative gradient of half the squared error, for every weight and every
shape of the network.
-/

namespace RlAqs

/-! What the loops leave. -/

section

variable {K : Type*}

theorem fillColumn_apply (count : Nat) (value : Nat → K) (gradient : Nat → Nat → K) (j a b : Nat) :
    MSE.fillColumn count value gradient j a b =
      if a < count ∧ b = j then value a else gradient a b := by
  induction count with
  | zero => simp [MSE.fillColumn]
  | succ count ih =>
      have last : MSE.fillColumn (count + 1) value gradient j =
          assign (MSE.fillColumn count value gradient j) count j (value count) :=
        foldl_range_succ _ _ _
      rw [last, assign_apply, ih]
      by_cases here : a = count ∧ b = j
      · rw [if_pos here, if_pos ⟨by omega, here.2⟩, here.1]
      · have side : a < count + 1 ∧ b = j ↔ a < count ∧ b = j := by omega
        simp only [here, side, if_false]

variable [CommRing K] (activation activationOutput : Activation K) (network : FeedforwardNetwork K)
variable (targets : Nat → K) (mse : MSE K)

theorem outputTurns_apply (count : Nat) :
    (∀ k, ((List.range count).foldl (MSE.outputTurn activationOutput network targets) mse).deltaOutput
        k =
      if k < count then MSE.getOutputDelta activationOutput network (targets k) k
      else mse.deltaOutput k) ∧
    ∀ j k, ((List.range count).foldl (MSE.outputTurn activationOutput network targets)
        mse).gradientHiddenOutput j k =
      if j < network.shape.numHidden + 1 ∧ k < count then
        MSE.getOutputDelta activationOutput network (targets k) k * network.hiddenNeurons j
      else mse.gradientHiddenOutput j k := by
  induction count with
  | zero => simp
  | succ count ih =>
      obtain ⟨deltas, gradients⟩ := ih
      rw [foldl_range_succ]
      refine ⟨fun k => ?_, fun j k => ?_⟩
      · simp only [MSE.outputTurn, Function.update_apply, deltas k]
        by_cases last : k = count
        · rw [if_pos last, if_pos (by omega), last]
        · have side : k < count + 1 ↔ k < count := by omega
          simp only [last, side, if_false]
      · simp only [MSE.outputTurn, fillColumn_apply, gradients j k, Function.update_self]
        by_cases last : k = count
        · subst last
          simp
        · have side : k < count + 1 ↔ k < count := by omega
          simp only [last, side, and_false, if_false]

theorem hiddenTurns_apply (count i j : Nat) :
    ((List.range count).foldl (MSE.hiddenTurn activation network) mse).gradientInputHidden i j =
      if i < network.shape.numInputs + 1 ∧ j < count then
        MSE.getHiddenDelta activation network mse j * network.inputNeurons i
      else mse.gradientInputHidden i j := by
  induction count with
  | zero => simp
  | succ count ih =>
      have deltas : ((List.range count).foldl (MSE.hiddenTurn activation network) mse).deltaOutput =
          mse.deltaOutput :=
        foldl_kept MSE.deltaOutput (MSE.hiddenTurn activation network) (fun _ _ => rfl) _ _
      rw [foldl_range_succ]
      simp only [MSE.hiddenTurn, fillColumn_apply, ih, Function.update_self]
      by_cases last : j = count
      · subst last
        simp [MSE.getHiddenDelta, deltas]
      · have side : j < count + 1 ↔ j < count := by omega
        simp only [last, side, and_false, if_false]

variable {i j k : Nat}

theorem calcGradient_hiddenOutput (inside : j < network.shape.numHidden + 1)
    (output : k < network.shape.numOutputs) :
    (MSE.calcGradient activation activationOutput network targets mse).gradientHiddenOutput j k =
      MSE.getOutputDelta activationOutput network (targets k) k * network.hiddenNeurons j := by
  rw [MSE.calcGradient,
    foldl_kept MSE.gradientHiddenOutput (MSE.hiddenTurn activation network) fun _ _ => rfl,
    (outputTurns_apply activationOutput network targets mse _).2 j k, if_pos ⟨inside, output⟩]

/-- The hidden deltas read the output deltas of the same call. -/
theorem calcGradient_inputHidden (inside : i < network.shape.numInputs + 1)
    (hidden : j < network.shape.numHidden) :
    (MSE.calcGradient activation activationOutput network targets mse).gradientInputHidden i j =
      activation.deriv (∑ i ∈ Finset.range (network.shape.numInputs + 1),
          network.weightsInputHidden i j * network.inputNeurons i) *
        (∑ k ∈ Finset.range network.shape.numOutputs, network.weightsHiddenOutput j k *
          MSE.getOutputDelta activationOutput network (targets k) k) * network.inputNeurons i := by
  have sums : ∑ k ∈ Finset.range network.shape.numOutputs, network.weightsHiddenOutput j k *
      ((List.range network.shape.numOutputs).foldl
        (MSE.outputTurn activationOutput network targets) mse).deltaOutput k =
      ∑ k ∈ Finset.range network.shape.numOutputs, network.weightsHiddenOutput j k *
        MSE.getOutputDelta activationOutput network (targets k) k := by
    refine Finset.sum_congr rfl fun k member => ?_
    rw [(outputTurns_apply activationOutput network targets mse _).1 k,
      if_pos (Finset.mem_range.mp member)]
  rw [MSE.calcGradient, hiddenTurns_apply activation network _ _ i j, if_pos ⟨inside, hidden⟩]
  simp only [MSE.getHiddenDelta, sumUpTo_eq, sums]

end

/-! The forward pass, and its slopes. -/

section

variable (activation activationOutput : Activation ℝ) (network : FeedforwardNetwork ℝ)
variable (inputs targets : Nat → ℝ)

noncomputable def squaredError : ℝ :=
  0.5 * ∑ k ∈ Finset.range network.shape.numOutputs,
    (targets k - (network.present activation activationOutput inputs).outputNeurons k) ^ 2

theorem present_output {k : Nat} (output : k < network.shape.numOutputs) :
    (network.present activation activationOutput inputs).outputNeurons k =
      activationOutput.activate (network.outputNet
        (network.present activation activationOutput inputs).hiddenNeurons k) := by
  simp only [FeedforwardNetwork.present]
  rw [fill_apply, if_pos output]

theorem present_hidden (j : Nat) :
    (network.present activation activationOutput inputs).hiddenNeurons j =
      if j < network.shape.numHidden then
        activation.activate (network.hiddenNet
          (network.present activation activationOutput inputs).inputNeurons j)
      else network.hiddenNeurons j := by
  simp only [FeedforwardNetwork.present]
  rw [fill_apply]

theorem getOutputDelta_present (target : ℝ) {k : Nat} (output : k < network.shape.numOutputs) :
    MSE.getOutputDelta activationOutput (network.present activation activationOutput inputs) target
        k =
      activationOutput.deriv (network.outputNet
          (network.present activation activationOutput inputs).hiddenNeurons k) *
        (target - activationOutput.activate (network.outputNet
          (network.present activation activationOutput inputs).hiddenNeurons k)) := by
  simp only [MSE.getOutputDelta, present_output _ _ _ _ output]
  congr 2
  rw [FeedforwardNetwork.outputNet, sumUpTo_eq, sumUpTo_eq]
  exact Finset.sum_congr rfl fun j _ => mul_comm _ _

theorem net_hasDerivAt (factors : Nat → ℝ) (matrix : Nat → Nat → ℝ) {count i : Nat}
    (inside : i < count) (j b : Nat) :
    HasDerivAt (fun w => sumUpTo count fun a => factors a * assign matrix i j w a b)
      (if b = j then factors i else 0) (matrix i j) := by
  have terms : ∀ a ∈ Finset.range count,
      HasDerivAt (fun w => factors a * assign matrix i j w a b)
        (if a = i then if b = j then factors i else 0 else 0) (matrix i j) := by
    intro a _
    simp only [assign_apply]
    by_cases row : a = i
    · by_cases column : b = j
      · simpa [row, column] using hasDerivAt_const_mul (x := matrix i j) (factors i)
      · simpa [row, column] using hasDerivAt_const (matrix i j) (factors i * matrix i b)
    · simpa [row] using hasDerivAt_const (matrix i j) (factors a * matrix a b)
  have total := HasDerivAt.fun_sum terms
  rw [Finset.sum_ite_eq' (Finset.range count) i, if_pos (Finset.mem_range.mpr inside)] at total
  simpa only [sumUpTo_eq] using total

variable {activationOutput} in
/-- The chain rule through the outputs: each net input carries its own slope. -/
theorem error_hasDerivAt
    (slopes : ∀ x, HasDerivAt activationOutput.activate (activationOutput.deriv x) x)
    (count : Nat) {nets : Nat → ℝ → ℝ} {rates : Nat → ℝ} {point : ℝ}
    (moving : ∀ k < count, HasDerivAt (nets k) (rates k) point) :
    HasDerivAt
      (fun w => 0.5 * ∑ k ∈ Finset.range count,
        (targets k - activationOutput.activate (nets k w)) ^ 2)
      (-∑ k ∈ Finset.range count, activationOutput.deriv (nets k point) *
        (targets k - activationOutput.activate (nets k point)) * rates k) point := by
  have terms : ∀ k ∈ Finset.range count,
      HasDerivAt (fun w => (targets k - activationOutput.activate (nets k w)) ^ 2)
        (-2 * (activationOutput.deriv (nets k point) *
          (targets k - activationOutput.activate (nets k point)) * rates k)) point := by
    intro k member
    have output := (slopes (nets k point)).comp point (moving k (Finset.mem_range.mp member))
    refine ((output.const_sub (targets k)).fun_pow 2).congr_deriv ?_
    simp only [Function.comp_apply]
    ring
  refine ((HasDerivAt.fun_sum terms).const_mul 0.5).congr_deriv ?_
  rw [← Finset.mul_sum]
  ring

theorem squaredError_eq :
    squaredError activation activationOutput network inputs targets =
      0.5 * ∑ k ∈ Finset.range network.shape.numOutputs,
        (targets k - activationOutput.activate (network.outputNet
          (network.present activation activationOutput inputs).hiddenNeurons k)) ^ 2 := by
  rw [squaredError]
  congr 1
  refine Finset.sum_congr rfl fun k member => ?_
  rw [present_output _ _ _ _ (Finset.mem_range.mp member)]

@[simp]
theorem setWeight_shape (weight : Weight) (value : ℝ) :
    (network.setWeight weight value).shape = network.shape := by
  cases weight <;> rfl

@[simp]
theorem setWeight_hiddenNeurons (weight : Weight) (value : ℝ) :
    (network.setWeight weight value).hiddenNeurons = network.hiddenNeurons := by
  cases weight <;> rfl

@[simp]
theorem setWeight_inputNeurons (weight : Weight) (value : ℝ) :
    ((network.setWeight weight value).present activation activationOutput inputs).inputNeurons =
      (network.present activation activationOutput inputs).inputNeurons := by
  cases weight <;> rfl

variable {activation activationOutput}

/-- A weight into an output moves the net input of that output alone. -/
theorem hiddenOutput_gradient
    (slopesOutput : ∀ x, HasDerivAt activationOutput.activate (activationOutput.deriv x) x)
    {j k : Nat} (inside : j < network.shape.numHidden + 1) (output : k < network.shape.numOutputs) :
    HasDerivAt
      (fun w => squaredError activation activationOutput (network.setWeight (.hiddenOutput j k) w)
        inputs targets)
      (-(MSE.getOutputDelta activationOutput
          (network.present activation activationOutput inputs) (targets k) k *
        (network.present activation activationOutput inputs).hiddenNeurons j))
      (network.weightsHiddenOutput j k) := by
  have nets : ∀ b < network.shape.numOutputs,
      HasDerivAt (fun w => (network.setWeight (.hiddenOutput j k) w).outputNet
          (network.present activation activationOutput inputs).hiddenNeurons b)
        (if b = k then (network.present activation activationOutput inputs).hiddenNeurons j else 0)
        (network.weightsHiddenOutput j k) :=
    fun b _ => net_hasDerivAt _ network.weightsHiddenOutput inside k b
  have error := error_hasDerivAt targets slopesOutput network.shape.numOutputs nets
  have unmoved : network.setWeight (.hiddenOutput j k) (network.weightsHiddenOutput j k) = network :=
    network.setWeight_weight (.hiddenOutput j k)
  simp only [squaredError_eq]
  refine error.congr_deriv ?_
  simp only [unmoved, mul_ite, mul_zero]
  rw [Finset.sum_ite_eq' (Finset.range network.shape.numOutputs) k,
    if_pos (Finset.mem_range.mpr output), getOutputDelta_present _ _ _ _ _ output]

variable (activationOutput) in
theorem hiddenNeurons_hasDerivAt
    (slopes : ∀ x, HasDerivAt activation.activate (activation.deriv x) x)
    {i j : Nat} (inside : i < network.shape.numInputs + 1) (hidden : j < network.shape.numHidden)
    (b : Nat) :
    HasDerivAt
      (fun w => ((network.setWeight (.inputHidden i j) w).present activation activationOutput
        inputs).hiddenNeurons b)
      (if b = j then activation.deriv (network.hiddenNet
          (network.present activation activationOutput inputs).inputNeurons j) *
        (network.present activation activationOutput inputs).inputNeurons i else 0)
      (network.weightsInputHidden i j) := by
  simp only [present_hidden, setWeight_shape, setWeight_hiddenNeurons, setWeight_inputNeurons]
  by_cases below : b < network.shape.numHidden
  · have net : HasDerivAt
        (fun w => (network.setWeight (.inputHidden i j) w).hiddenNet
          (network.present activation activationOutput inputs).inputNeurons b)
        (if b = j then (network.present activation activationOutput inputs).inputNeurons i else 0)
        (network.weightsInputHidden i j) :=
      net_hasDerivAt _ network.weightsInputHidden inside j b
    have unmoved : network.setWeight (.inputHidden i j) (network.weightsInputHidden i j) = network :=
      network.setWeight_weight (.inputHidden i j)
    have moved := (slopes _).comp (network.weightsInputHidden i j) net
    simp only [below, if_true]
    refine moved.congr_deriv ?_
    rw [unmoved]
    by_cases this : b = j
    · simp [this]
    · simp [this]
  · have other : b ≠ j := by omega
    simp only [below, other, if_false]
    exact hasDerivAt_const (network.weightsInputHidden i j) (network.hiddenNeurons b)

theorem inputHidden_gradient
    (slopes : ∀ x, HasDerivAt activation.activate (activation.deriv x) x)
    (slopesOutput : ∀ x, HasDerivAt activationOutput.activate (activationOutput.deriv x) x)
    {i j : Nat} (inside : i < network.shape.numInputs + 1) (hidden : j < network.shape.numHidden) :
    HasDerivAt
      (fun w => squaredError activation activationOutput (network.setWeight (.inputHidden i j) w)
        inputs targets)
      (-(activation.deriv (network.hiddenNet
          (network.present activation activationOutput inputs).inputNeurons j) *
        (∑ k ∈ Finset.range network.shape.numOutputs, network.weightsHiddenOutput j k *
          MSE.getOutputDelta activationOutput
            (network.present activation activationOutput inputs) (targets k) k) *
        (network.present activation activationOutput inputs).inputNeurons i))
      (network.weightsInputHidden i j) := by
  have unmoved : network.setWeight (.inputHidden i j) (network.weightsInputHidden i j) = network :=
    network.setWeight_weight (.inputHidden i j)
  have nets : ∀ k < network.shape.numOutputs,
      HasDerivAt (fun w => network.outputNet ((network.setWeight (.inputHidden i j) w).present
          activation activationOutput inputs).hiddenNeurons k)
        (activation.deriv (network.hiddenNet
            (network.present activation activationOutput inputs).inputNeurons j) *
          (network.present activation activationOutput inputs).inputNeurons i *
            network.weightsHiddenOutput j k)
        (network.weightsInputHidden i j) := by
    intro k _
    have terms := fun b (_ : b ∈ Finset.range (network.shape.numHidden + 1)) =>
      (hiddenNeurons_hasDerivAt activationOutput network inputs slopes inside hidden b).mul_const
        (network.weightsHiddenOutput b k)
    have total := HasDerivAt.fun_sum terms
    simp only [ite_mul, zero_mul] at total
    rw [Finset.sum_ite_eq' (Finset.range (network.shape.numHidden + 1)) j,
      if_pos (Finset.mem_range.mpr (Nat.lt_succ_of_lt hidden))] at total
    simpa only [FeedforwardNetwork.outputNet, sumUpTo_eq] using total
  have error := error_hasDerivAt targets slopesOutput network.shape.numOutputs nets
  simp only [squaredError_eq]
  refine error.congr_deriv ?_
  rw [Finset.mul_sum, Finset.sum_mul]
  refine congrArg Neg.neg (Finset.sum_congr rfl fun k member => ?_)
  rw [getOutputDelta_present _ _ _ _ _ (Finset.mem_range.mp member), unmoved]
  ring

/-- For every weight, those of the biases among them. -/
theorem calcGradient_negative (mse : MSE ℝ)
    (slopes : ∀ x, HasDerivAt activation.activate (activation.deriv x) x)
    (slopesOutput : ∀ x, HasDerivAt activationOutput.activate (activationOutput.deriv x) x)
    (weight : Weight) (member : weight ∈ network.shape.layout) :
    HasDerivAt
      (fun w => squaredError activation activationOutput (network.setWeight weight w) inputs targets)
      (-(MSE.calcGradient activation activationOutput
          (network.present activation activationOutput inputs) targets mse).gradient weight)
      (network.weight weight) := by
  cases weight with
  | inputHidden i j =>
      obtain ⟨inside, hidden⟩ := network.shape.mem_layout_inputHidden.mp member
      have stored := calcGradient_inputHidden activation activationOutput
        (network.present activation activationOutput inputs) targets mse inside hidden
      have net : ∑ i ∈ Finset.range (network.shape.numInputs + 1), network.weightsInputHidden i j *
          (network.present activation activationOutput inputs).inputNeurons i =
          network.hiddenNet (network.present activation activationOutput inputs).inputNeurons j := by
        rw [FeedforwardNetwork.hiddenNet, sumUpTo_eq]
        exact Finset.sum_congr rfl fun i _ => mul_comm _ _
      refine (inputHidden_gradient network inputs targets slopes slopesOutput inside
        hidden).congr_deriv ?_
      rw [MSE.gradient, stored, ← net]
      rfl
  | hiddenOutput j k =>
      obtain ⟨inside, output⟩ := network.shape.mem_layout_hiddenOutput.mp member
      have stored := calcGradient_hiddenOutput activation activationOutput
        (network.present activation activationOutput inputs) targets mse inside output
      refine (hiddenOutput_gradient network inputs targets slopesOutput inside output).congr_deriv ?_
      rw [MSE.gradient, stored]

end

noncomputable def chain : FeedforwardNetwork ℝ where
  shape := Shape.single
  inputNeurons i := if i = 1 then 1 else 0
  hiddenNeurons j := if j = 1 then 1 else 0
  outputNeurons _ := 0
  weightsInputHidden _ _ := 0
  weightsHiddenOutput j _ := if j = 0 then 1 else 0
  inputBias := rfl
  hiddenBias := rfl

theorem calcGradient_negative_chain :
    HasDerivAt
      (fun w => squaredError Activation.logistic Activation.identity
        (chain.setWeight (.inputHidden 0 0) w) (fun _ => 1) (fun _ => 9 / 2)) (-1) 0 := by
  have slope := calcGradient_negative chain (fun _ => 1) (fun _ => 9 / 2)
    (MSE.fresh (.default DefaultLossPolicy.fresh)) Activation.logistic_deriv
    Activation.identity_deriv (.inputHidden 0 0) (by decide)
  refine slope.congr_deriv ?_
  have stored := calcGradient_inputHidden Activation.logistic Activation.identity
    (chain.present Activation.logistic Activation.identity fun _ => 1) (fun _ => 9 / 2)
    (MSE.fresh (.default DefaultLossPolicy.fresh)) (i := 0) (j := 0) (by decide) (by decide)
  rw [MSE.gradient, stored]
  norm_num [chain, Shape.single, FeedforwardNetwork.present, FeedforwardNetwork.hiddenNet,
    FeedforwardNetwork.outputNet, MSE.getOutputDelta, Activation.logistic, Activation.identity,
    sumUpTo, fill, List.range_succ, Finset.sum_range_succ]

end RlAqs
