import RlAqs.Library.Counter
import Mathlib.Algebra.BigOperators.Group.Finset.Basic
import Mathlib.Algebra.Field.Defs
import Mathlib.Logic.Function.Basic
import Mathlib.Tactic.Ring

/-!
`FeedforwardNetwork`: one hidden layer, with a bias neuron that closes the input layer and one that
closes the hidden layer. An array is a function of its index; only indices inside are read.
-/

namespace RlAqs

structure Activation (K : Type*) where
  activate : K → K
  deriv : K → K
  deriv2nd : K → K

def Activation.identity {K : Type*} [Zero K] [One K] : Activation K where
  activate x := x
  deriv _ := 1
  deriv2nd _ := 0

section Loops

variable {K σ α β : Type*}

theorem foldl_range_succ (turn : σ → Nat → σ) (count : Nat) (state : σ) :
    (List.range (count + 1)).foldl turn state = turn ((List.range count).foldl turn state) count := by
  rw [List.range_succ, List.foldl_append]
  rfl

theorem foldl_kept (part : σ → β) (turn : σ → α → σ)
    (kept : ∀ state a, part (turn state a) = part state) (turns : List α) (state : σ) :
    part (turns.foldl turn state) = part state := by
  induction turns generalizing state with
  | nil => rfl
  | cons first rest ih => exact (ih (turn state first)).trans (kept state first)

def sumUpTo [AddMonoid K] (count : Nat) (term : Nat → K) : K :=
  (List.range count).foldl (fun sum i => sum + term i) 0

theorem sumUpTo_eq [AddCommMonoid K] (count : Nat) (term : Nat → K) :
    sumUpTo count term = ∑ i ∈ Finset.range count, term i := by
  induction count with
  | zero => rfl
  | succ count ih =>
      rw [sumUpTo] at ih
      rw [sumUpTo, foldl_range_succ, ih, Finset.sum_range_succ]

def fill (count : Nat) (value array : Nat → K) : Nat → K :=
  (List.range count).foldl (fun array i => Function.update array i (value i)) array

theorem fill_apply (count : Nat) (value array : Nat → K) (i : Nat) :
    fill count value array i = if i < count then value i else array i := by
  induction count with
  | zero => rfl
  | succ count ih =>
      have last : fill (count + 1) value array =
          Function.update (fill count value array) count (value count) :=
        foldl_range_succ _ _ _
      rw [last]
      by_cases same : i = count
      · rw [same, Function.update_self, if_pos (Nat.lt_succ_self count)]
      · rw [Function.update_of_ne same, ih]
        have side : i < count + 1 ↔ i < count := by omega
        simp only [side]

theorem fill_end (count : Nat) (value array : Nat → K) :
    fill count value array count = array count := by
  rw [fill_apply, if_neg (Nat.lt_irrefl count)]

def assign (matrix : Nat → Nat → K) (i j : Nat) (value : K) : Nat → Nat → K :=
  Function.update matrix i (Function.update (matrix i) j value)

theorem assign_apply (matrix : Nat → Nat → K) (i j a b : Nat) (value : K) :
    assign matrix i j value a b = if a = i ∧ b = j then value else matrix a b := by
  unfold assign
  by_cases row : a = i
  · subst row
    by_cases column : b = j
    · simp [column]
    · simp [column]
  · simp [row]

@[simp]
theorem assign_self (matrix : Nat → Nat → K) (i j : Nat) :
    assign matrix i j (matrix i j) = matrix := by
  unfold assign
  rw [Function.update_eq_self, Function.update_eq_self]

end Loops

/-- The sizes of the layers. The loops over a layer and its bias count with 16 bits, and those of
the constructor come to an end for these sizes only. -/
structure Shape where
  numInputs : Nat
  numHidden : Nat
  numOutputs : Nat
  inputs_lt : numInputs < 65535
  hidden_lt : numHidden < 65535
  outputs_lt : numOutputs < 65536

def Shape.single : Shape where
  numInputs := 1
  numHidden := 1
  numOutputs := 1
  inputs_lt := by decide
  hidden_lt := by decide
  outputs_lt := by decide

inductive Weight
  | inputHidden (i j : Nat)
  | hiddenOutput (j k : Nat)
  deriving DecidableEq, Repr

namespace Shape

/-- The order in which the loops over all weights pass them. -/
def layout (shape : Shape) : List Weight :=
  ((List.range shape.numHidden).flatMap fun j =>
    (List.range (shape.numInputs + 1)).map fun i => .inputHidden i j) ++
  (List.range shape.numOutputs).flatMap fun k =>
    (List.range (shape.numHidden + 1)).map fun j => .hiddenOutput j k

def free (shape : Shape) : Nat :=
  (shape.numInputs + 1) * shape.numHidden + (shape.numHidden + 1) * shape.numOutputs

theorem layout_length (shape : Shape) : shape.layout.length = shape.free := by
  simp [layout, free, List.length_flatMap, mul_comm]

def getNumFree (shape : Shape) : Nat :=
  (shape.numHidden + shape.numOutputs + shape.numInputs * shape.numHidden +
    shape.numHidden * shape.numOutputs) % 65536

theorem getNumFree_eq (shape : Shape) : shape.getNumFree = shape.free % 65536 := by
  unfold getNumFree free
  congr 1
  ring

variable {K σ : Type*}

/-- A loop over all weights that stores a value for each; the index has 16 bits. -/
def collectFrom (value : Weight → K) : List Weight → Nat → List K → Option (List K)
  | [], _, array => some array
  | weight :: rest, index, array =>
      if index < array.length then
        collectFrom value rest ((index + 1) % 65536) (array.set index (value weight))
      else none

/-- The array is allocated with `getNumFree` elements. -/
def collect [Zero K] (shape : Shape) (value : Weight → K) : Option (List K) :=
  collectFrom value shape.layout 0 (List.replicate shape.getNumFree 0)

def distributeFrom (write : σ → Weight → K → σ) (values : List K) :
    List Weight → Nat → σ → Option σ
  | [], _, state => some state
  | weight :: rest, index, state =>
      match values[index]? with
      | some value => distributeFrom write values rest ((index + 1) % 65536) (write state weight value)
      | none => none

def distribute (shape : Shape) (write : σ → Weight → K → σ) (values : List K) (state : σ) :
    Option σ :=
  distributeFrom write values shape.layout 0 state

end Shape

structure FeedforwardNetwork (K : Type*) [One K] where
  shape : Shape
  inputNeurons : Nat → K
  hiddenNeurons : Nat → K
  outputNeurons : Nat → K
  weightsInputHidden : Nat → Nat → K
  weightsHiddenOutput : Nat → Nat → K
  inputBias : inputNeurons shape.numInputs = 1
  hiddenBias : hiddenNeurons shape.numHidden = 1

namespace FeedforwardNetwork

variable {K : Type*}

section

variable [Semiring K] (network : FeedforwardNetwork K)

def hiddenNet (inputNeurons : Nat → K) (j : Nat) : K :=
  sumUpTo (network.shape.numInputs + 1) fun i => inputNeurons i * network.weightsInputHidden i j

def outputNet (hiddenNeurons : Nat → K) (k : Nat) : K :=
  sumUpTo (network.shape.numHidden + 1) fun j => hiddenNeurons j * network.weightsHiddenOutput j k

/-- The network with its neurons set; the outputs it returns are a copy of its output neurons. -/
def present (activation activationOutput : Activation K) (inputs : Nat → K) :
    FeedforwardNetwork K :=
  let inputNeurons := fill network.shape.numInputs inputs network.inputNeurons
  let hiddenNeurons := fill network.shape.numHidden
    (fun j => activation.activate (network.hiddenNet inputNeurons j)) network.hiddenNeurons
  { network with
    inputNeurons := inputNeurons
    hiddenNeurons := hiddenNeurons
    outputNeurons := fill network.shape.numOutputs
      (fun k => activationOutput.activate (network.outputNet hiddenNeurons k)) network.outputNeurons
    inputBias := (fill_end _ _ _).trans network.inputBias
    hiddenBias := (fill_end _ _ _).trans network.hiddenBias }

def addWeight : Weight → K → FeedforwardNetwork K
  | .inputHidden i j, delta =>
      { network with
        weightsInputHidden :=
          assign network.weightsInputHidden i j (network.weightsInputHidden i j + delta) }
  | .hiddenOutput j k, delta =>
      { network with
        weightsHiddenOutput :=
          assign network.weightsHiddenOutput j k (network.weightsHiddenOutput j k + delta) }

def moved (direction : Weight → K) (rate : K) : FeedforwardNetwork K :=
  { network with
    weightsInputHidden := fun i j =>
      network.weightsInputHidden i j + rate * direction (.inputHidden i j)
    weightsHiddenOutput := fun j k =>
      network.weightsHiddenOutput j k + rate * direction (.hiddenOutput j k) }

end

section

variable [One K] (network : FeedforwardNetwork K)

def weight : Weight → K
  | .inputHidden i j => network.weightsInputHidden i j
  | .hiddenOutput j k => network.weightsHiddenOutput j k

def setWeight : Weight → K → FeedforwardNetwork K
  | .inputHidden i j, value =>
      { network with weightsInputHidden := assign network.weightsInputHidden i j value }
  | .hiddenOutput j k, value =>
      { network with weightsHiddenOutput := assign network.weightsHiddenOutput j k value }

@[simp]
theorem setWeight_weight (weight : Weight) :
    network.setWeight weight (network.weight weight) = network := by
  cases weight <;> simp [setWeight, FeedforwardNetwork.weight]

def getWeights [Zero K] : Option (List K) := network.shape.collect network.weight

def setWeights (weights : List K) : Option (FeedforwardNetwork K) :=
  network.shape.distribute setWeight weights network

end

end FeedforwardNetwork

end RlAqs
