import RlAqs.Neural.DotProduct
import RlAqs.Neural.ObjectiveCore

/-!
`ConjugateGradient`: what `train` does until it calls the line search, and the update of the weights
with the rate that it returns.
-/

namespace RlAqs

/-- The arrays are allocated with `getNumFree` elements, which `m_numFree` holds as well. -/
structure ConjugateGradient (K : Type*) [One K] where
  network : FeedforwardNetwork K
  objective : MSE K
  errtol : K
  isFirst : Bool
  gradientOld : List K
  trainingDirection : List K
  gradientOld_length : gradientOld.length = network.shape.getNumFree
  trainingDirection_length : trainingDirection.length = network.shape.getNumFree

namespace ConjugateGradient

variable {K : Type*} [Field K] [LinearOrder K]

def fresh (network : FeedforwardNetwork K) (objective : MSE K) (errtol : K) :
    ConjugateGradient K where
  network := network
  objective := objective
  errtol := errtol
  isFirst := true
  gradientOld := List.replicate network.shape.getNumFree 0
  trainingDirection := List.replicate network.shape.getNumFree 0
  gradientOld_length := List.length_replicate
  trainingDirection_length := List.length_replicate

def getPolakRibiereParameter (gradientOld gradient : List K) : K :=
  let sums := (gradientOld.zip gradient).foldl
    (fun (numerator, denominator) (old, new) =>
      (numerator + (new - old) * new, denominator + old * old)) ((0, 0) : K × K)
  let parameter := if sums.2 ≠ 0 then sums.1 / sums.2 else 0
  let parameter := if parameter < 0 then 0 else parameter
  if parameter > 1 then 1 else parameter

def getTrainingDirection (gradientOld gradient trainingDirection : List K) : List K :=
  let parameter := getPolakRibiereParameter gradientOld gradient
  List.zipWith (fun slope direction => -slope + direction * parameter) gradient trainingDirection

/-- What `train` comes to: the error is small enough, or it calls `getOptimalTrainingRate`. -/
inductive Prepared (K : Type*)
  | settled (objective : MSE K)
  | search (objective : MSE K) (error : Option K) (weights trainingDirection : List K)

/-- An error that is a quotient by zero is infinite or no number at all, and not below the
tolerance. -/
def prepare (activation activationOutput : Activation K) (trainer : ConjugateGradient K)
    (targets : Nat → K) : Option (Prepared K) :=
  let network := trainer.network
  let (error, objective) :=
    trainer.objective.addError targets network.outputNeurons network.shape.numOutputs
  if error.any (· < trainer.errtol) then some (.settled objective)
  else do
    let objective := objective.calcGradient activation activationOutput network targets
    let gradient ← objective.getGradient network.shape
    let direction :=
      if trainer.isFirst then gradient.map (- ·)
      else getTrainingDirection trainer.gradientOld gradient trainer.trainingDirection
    let slope ← Vector.dotproduct network.shape.getNumFree gradient direction
    let direction := if slope ≥ 0 then gradient.map (- ·) else direction
    let weights ← network.getWeights
    return .search objective error weights direction

def updateWeights (trainer : ConjugateGradient K) (optimalTrainingRate : K) :
    Option (FeedforwardNetwork K) :=
  trainer.network.shape.distribute
    (fun network weight direction => network.addWeight weight (optimalTrainingRate * direction))
    trainer.trainingDirection trainer.network

end ConjugateGradient

end RlAqs
