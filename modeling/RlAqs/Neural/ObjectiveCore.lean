import RlAqs.Neural.FeedforwardCore

/-!
`MSE`, the objective of the training, and the two loss policies behind it: the mean over all
examples so far, and the mean over the last ones in a circular buffer. A quotient by zero is none.
-/

namespace RlAqs

variable {K : Type*}

def meanOf [Field K] [DecidableEq K] (sum count : K) : Option K :=
  if count = 0 then none else some (sum / count)

def addSquares [Ring K] (targets outputs : Nat → K) (size : Nat) (sse : K) : K :=
  (List.range size).foldl
    (fun sse i =>
      let d := targets i - outputs i
      sse + d * d) sse

structure DefaultLossPolicy (K : Type*) where
  sse : K
  size : UInt32

namespace DefaultLossPolicy

variable [Field K] [DecidableEq K]

def fresh : DefaultLossPolicy K where
  sse := 0
  size := 0

def mean (policy : DefaultLossPolicy K) : Option K :=
  if policy.size = 0 then some 0 else meanOf policy.sse policy.size.toNat

def addError (policy : DefaultLossPolicy K) (targets outputs : Nat → K) (size : Nat) :
    Option K × DefaultLossPolicy K :=
  let policy : DefaultLossPolicy K :=
    { sse := addSquares targets outputs size policy.sse, size := policy.size + 1 }
  (meanOf policy.sse policy.size.toNat, policy)

def error (policy : DefaultLossPolicy K) (targets outputs : Nat → K) (size : Nat) : Option K :=
  meanOf (addSquares targets outputs size policy.sse) (policy.size + 1).toNat

end DefaultLossPolicy

structure SlidingWindowLossPolicy (K : Type*) where
  window : Nat
  window_lt : window < 2 ^ 31
  buffer : List K
  fits : buffer.length ≤ window

namespace SlidingWindowLossPolicy

/-- `push_back` drops the first element of a full buffer. -/
def pushBack (policy : SlidingWindowLossPolicy K) (value : K) : SlidingWindowLossPolicy K :=
  { policy with
    buffer :=
      if policy.window = 0 then policy.buffer
      else if policy.buffer.length < policy.window then policy.buffer ++ [value]
      else policy.buffer.tail ++ [value]
    fits := by
      have fits := policy.fits
      split_ifs
      · exact fits
      · rw [List.length_append, List.length_singleton]
        omega
      · rw [List.length_append, List.length_tail, List.length_singleton]
        omega }

variable [Field K] [DecidableEq K]

def mean (policy : SlidingWindowLossPolicy K) : Option K :=
  if policy.buffer.length = 0 then some 0 else meanOf policy.buffer.sum policy.buffer.length

def addError (policy : SlidingWindowLossPolicy K) (targets outputs : Nat → K) (size : Nat) :
    Option K × SlidingWindowLossPolicy K :=
  let policy := policy.pushBack (addSquares targets outputs size 0)
  (meanOf policy.buffer.sum policy.buffer.length, policy)

def error (policy : SlidingWindowLossPolicy K) (targets outputs : Nat → K) (size : Nat) : Option K :=
  meanOf (addSquares targets outputs size policy.buffer.sum)
    (((policy.buffer.length + 1) % 2 ^ 32 : Nat) : K)

end SlidingWindowLossPolicy

inductive LossPolicy (K : Type*) where
  | default (policy : DefaultLossPolicy K)
  | slidingWindow (policy : SlidingWindowLossPolicy K)

namespace LossPolicy

variable [Field K] [DecidableEq K]

def mean : LossPolicy K → Option K
  | default policy => policy.mean
  | slidingWindow policy => policy.mean

def addError (targets outputs : Nat → K) (size : Nat) : LossPolicy K → Option K × LossPolicy K
  | default policy => (policy.addError targets outputs size).map id default
  | slidingWindow policy => (policy.addError targets outputs size).map id slidingWindow

def error (targets outputs : Nat → K) (size : Nat) : LossPolicy K → Option K
  | default policy => policy.error targets outputs size
  | slidingWindow policy => policy.error targets outputs size

end LossPolicy

structure MSE (K : Type*) where
  policy : LossPolicy K
  gradientInputHidden : Nat → Nat → K
  gradientHiddenOutput : Nat → Nat → K
  deltaHidden : Nat → K
  deltaOutput : Nat → K

namespace MSE

def fresh [Zero K] (policy : LossPolicy K) : MSE K where
  policy := policy
  gradientInputHidden _ _ := 0
  gradientHiddenOutput _ _ := 0
  deltaHidden _ := 0
  deltaOutput _ := 0

section Potential

variable [Field K] [DecidableEq K]

/-- The error of other weights on the input presented last. The network gets its weights back. -/
def potentialError (activation activationOutput : Activation K) (mse : MSE K)
    (network : FeedforwardNetwork K) (weights : List K) (targets : Nat → K) :
    Option (Option K × FeedforwardNetwork K) := do
  let origWeights ← network.getWeights
  let trial ← network.setWeights weights
  let shown := trial.present activation activationOutput trial.inputNeurons
  let err := mse.policy.error targets shown.outputNeurons shown.shape.numOutputs
  let restored ← shown.setWeights origWeights
  return (err, restored)

def addError (mse : MSE K) (targets outputs : Nat → K) (size : Nat) : Option K × MSE K :=
  (mse.policy.addError targets outputs size).map id fun policy => { mse with policy := policy }

end Potential

section Gradient

variable [CommRing K]

def getOutputDelta (activationOutput : Activation K) (network : FeedforwardNetwork K) (target : K)
    (k : Nat) : K :=
  let output := network.outputNeurons k
  let net := sumUpTo (network.shape.numHidden + 1) fun j =>
    network.weightsHiddenOutput j k * network.hiddenNeurons j
  activationOutput.deriv net * (target - output)

def getHiddenDelta (activation : Activation K) (network : FeedforwardNetwork K) (mse : MSE K)
    (j : Nat) : K :=
  let net := sumUpTo (network.shape.numInputs + 1) fun i =>
    network.weightsInputHidden i j * network.inputNeurons i
  let sum := sumUpTo network.shape.numOutputs fun k =>
    network.weightsHiddenOutput j k * mse.deltaOutput k
  activation.deriv net * sum

def fillColumn (count : Nat) (value : Nat → K) (gradient : Nat → Nat → K) (j : Nat) :
    Nat → Nat → K :=
  (List.range count).foldl (fun gradient i => assign gradient i j (value i)) gradient

def outputTurn (activationOutput : Activation K) (network : FeedforwardNetwork K)
    (targets : Nat → K) (mse : MSE K) (k : Nat) : MSE K :=
  let deltaOutput :=
    Function.update mse.deltaOutput k (getOutputDelta activationOutput network (targets k) k)
  { mse with
    deltaOutput := deltaOutput
    gradientHiddenOutput := fillColumn (network.shape.numHidden + 1)
      (fun j => deltaOutput k * network.hiddenNeurons j) mse.gradientHiddenOutput k }

def hiddenTurn (activation : Activation K) (network : FeedforwardNetwork K) (mse : MSE K)
    (j : Nat) : MSE K :=
  let deltaHidden := Function.update mse.deltaHidden j (getHiddenDelta activation network mse j)
  { mse with
    deltaHidden := deltaHidden
    gradientInputHidden := fillColumn (network.shape.numInputs + 1)
      (fun i => deltaHidden j * network.inputNeurons i) mse.gradientInputHidden j }

/-- The deltas of the outputs come first; those of the hidden neurons read them. -/
def calcGradient (activation activationOutput : Activation K) (network : FeedforwardNetwork K)
    (targets : Nat → K) (mse : MSE K) : MSE K :=
  (List.range network.shape.numHidden).foldl (hiddenTurn activation network)
    ((List.range network.shape.numOutputs).foldl (outputTurn activationOutput network targets) mse)

end Gradient

def gradient (mse : MSE K) : Weight → K
  | .inputHidden i j => mse.gradientInputHidden i j
  | .hiddenOutput j k => mse.gradientHiddenOutput j k

def getGradient [Zero K] (mse : MSE K) (shape : Shape) : Option (List K) :=
  shape.collect mse.gradient

end MSE

end RlAqs
