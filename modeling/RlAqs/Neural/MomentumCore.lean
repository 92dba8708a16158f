import RlAqs.Neural.ObjectiveCore

/-!
`Backpropagation`: one example moves the weights by their corrections, and a correction keeps a part
of the one before it.
-/

namespace RlAqs

namespace Shape

def correctionOrder (shape : Shape) : List Weight :=
  ((List.range shape.numOutputs).flatMap fun k =>
    (List.range (shape.numHidden + 1)).map fun j => .hiddenOutput j k) ++
  (List.range shape.numHidden).flatMap fun j =>
    (List.range (shape.numInputs + 1)).map fun i => .inputHidden i j

def updateOrder (shape : Shape) : List Weight :=
  ((List.range (shape.numInputs + 1)).flatMap fun i =>
    (List.range shape.numHidden).map fun j => .inputHidden i j) ++
  (List.range (shape.numHidden + 1)).flatMap fun j =>
    (List.range shape.numOutputs).map fun k => .hiddenOutput j k

end Shape

structure Lesson (K : Type*) where
  inputs : Nat → K
  targets : Nat → K

structure Backpropagation (K : Type*) [One K] where
  network : FeedforwardNetwork K
  objective : MSE K
  learningRate : K
  momentum : K
  errtol : K
  /-- The entries of `m_correctionsInputHidden` and `m_correctionsHiddenOutput`. -/
  corrections : Weight → K

namespace Backpropagation

variable {K : Type*} [Field K] [LinearOrder K]

def fresh (network : FeedforwardNetwork K) (objective : MSE K) (learningRate momentum errtol : K) :
    Backpropagation K where
  network := network
  objective := objective
  learningRate := learningRate
  momentum := momentum
  errtol := errtol
  corrections _ := 0

def updateWeights (trainer : Backpropagation K) : Backpropagation K :=
  { trainer with
    network := trainer.network.shape.updateOrder.foldl
      (fun network weight => network.addWeight weight (trainer.corrections weight)) trainer.network }

def addError (trainer : Backpropagation K) (targets : Nat → K) : Option K × MSE K :=
  trainer.objective.addError targets trainer.network.outputNeurons trainer.network.shape.numOutputs

/-- An error that is infinite or no number at all is not below the tolerance. -/
def train (activation activationOutput : Activation K) (trainer : Backpropagation K)
    (targets : Nat → K) : Backpropagation K :=
  let (error, objective) := trainer.addError targets
  if error.any (· < trainer.errtol) then { trainer with objective := objective }
  else
    let objective := objective.calcGradient activation activationOutput trainer.network targets
    let corrections := trainer.network.shape.correctionOrder.foldl
      (fun corrections weight => Function.update corrections weight
        (trainer.learningRate * objective.gradient weight + trainer.momentum * corrections weight))
      trainer.corrections
    { trainer with objective := objective, corrections := corrections }.updateWeights

def present (activation activationOutput : Activation K) (trainer : Backpropagation K)
    (inputs : Nat → K) : Backpropagation K :=
  { trainer with network := trainer.network.present activation activationOutput inputs }

def learn (activation activationOutput : Activation K) (trainer : Backpropagation K)
    (taught : Lesson K) : Backpropagation K :=
  (trainer.present activation activationOutput taught.inputs).train activation activationOutput
    taught.targets

end Backpropagation

end RlAqs
