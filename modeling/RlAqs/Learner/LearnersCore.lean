import RlAqs.Learner.SimplexCore
import RlAqs.Queue.LadderCore
import Mathlib.Logic.Function.Basic

/-!
The policy learners of `src/core/rl`. They differ in the gradient step; the projection of the
new strategy, its normalisation, the squeeze by `epsilon` and the choice of an action are the
same in all three. An edge is given by the positions of its vertices.
-/

namespace RlAqs

abbrev Values := List (UInt16 × ℚ)

structure PolicyConfig where
  epsilon : ℚ
  eta : ℚ
  aNeg : ℚ
  aPos : ℚ
  rNeg : ℚ
  rPos : ℚ
  deriving DecidableEq, Repr

/-- The edge properties the learners work on, and `m_lastTime`, which goes by edge index. -/
structure EdgeMaps where
  weight : Nat × Nat → ℚ
  emotion : Nat × Nat → ℚ
  rMin : Nat × Nat → ℚ
  rMax : Nat × Nat → ℚ
  ePos : Nat × Nat → ℚ
  eNeg : Nat × Nat → ℚ
  index : Nat × Nat → Nat
  lastTime : Nat → ℚ

structure PolicyDraws where
  uniform : ℚ
  pivots : Nat → Nat

/-- `std::sort` with `val_greater`; the order of equal values is not fixed. -/
structure Sorting where
  sort : Values → Values
  sort_perm : ∀ values, (sort values).Perm values
  sort_descending : ∀ values,
    (sort values).Pairwise fun first second => second.2 ≤ first.2

def edgeTo (source : UInt16) (value : UInt16 × ℚ) : Nat × Nat :=
  (source.toNat, value.1.toNat)

def qMean (maps : EdgeMaps) (source : UInt16) (values : Values) : ℚ :=
  (values.map fun value => value.2 * maps.weight (edgeTo source value)).sum

def WeightedPolicyLearner.gradient (config : PolicyConfig) (maps : EdgeMaps) (source : UInt16)
    (values : Values) : List ℚ :=
  values.map fun value =>
    let orig := maps.weight (edgeTo source value)
    let diff := value.2 - qMean maps source values
    if diff > 0 then orig + diff * config.eta * (1 - orig) else orig + diff * config.eta * orig

def FairActionLearner.gradient (config : PolicyConfig) (maps : EdgeMaps) (source : UInt16)
    (values : Values) : List ℚ :=
  values.map fun value =>
    maps.weight (edgeTo source value) + config.eta * (value.2 - qMean maps source values)

namespace GradientPolicyLearner

def decay (exp : ℚ → ℚ) (config : PolicyConfig) (currentTime : ℚ) (maps : EdgeMaps)
    (edge : Nat × Nat) : EdgeMaps :=
  let timeDiff := currentTime - maps.lastTime (maps.index edge)
  { maps with
    ePos := Function.update maps.ePos edge (maps.ePos edge * exp (config.rPos * timeDiff))
    eNeg := Function.update maps.eNeg edge (maps.eNeg edge * exp (config.rNeg * timeDiff))
    lastTime := Function.update maps.lastTime (maps.index edge) currentTime }

def feel (config : PolicyConfig) (signal : ℚ) (maps : EdgeMaps) (edge : Nat × Nat) : EdgeMaps :=
  let ePos := if signal > 0 then maps.ePos edge + config.aPos * signal else maps.ePos edge
  let eNeg := if signal > 0 then maps.eNeg edge else maps.eNeg edge + config.aNeg * signal
  let rMin := if maps.rMin edge > signal then signal else maps.rMin edge
  let rMax := if maps.rMax edge < signal then signal else maps.rMax edge
  let posSignal := if ePos > rMax then rMax else ePos
  let negSignal := if eNeg < rMin then rMin else eNeg
  { maps with
    ePos := Function.update maps.ePos edge ePos
    eNeg := Function.update maps.eNeg edge eNeg
    rMin := Function.update maps.rMin edge rMin
    rMax := Function.update maps.rMax edge rMax
    emotion := Function.update maps.emotion edge (posSignal + negSignal) }

def gradient (exp : ℚ → ℚ) (config : PolicyConfig) (currentTime : ℚ) (maps : EdgeMaps)
    (source : UInt16) (values : Values) : EdgeMaps × List ℚ :=
  let mean := qMean maps source values
  let decayed := values.foldl (fun maps value =>
    decay exp config currentTime maps (edgeTo source value)) maps
  values.foldl (fun state value =>
    let edge := edgeTo source value
    let felt := feel config (value.2 - mean) state.1 edge
    (felt, state.2 ++ [maps.weight edge + config.eta * felt.emotion edge])) (decayed, [])

end GradientPolicyLearner

/-! From the gradient to the new strategy and an action. -/

def normalise (vec : List ℚ) : Option (List ℚ) :=
  if gslFcmp vec.sum 1 (1 / 10 ^ 6) ≠ 0 then (divide 1 vec.sum).map (Vector.mult vec)
  else some vec

def squeeze (epsilon : ℚ) (vec : List ℚ) : List ℚ :=
  let nMinusOne : ℚ := vec.length - 1
  Vector.scale vec epsilon (1 - nMinusOne * epsilon)

def strategy (epsilon : ℚ) (gradient : List ℚ) (pivots : Nat → Nat) : Option (List ℚ) :=
  ((Simplex.projectionDuchi gradient 1 0 pivots).bind normalise).map (squeeze epsilon)

def EdgeMaps.setWeights (maps : EdgeMaps) (source : UInt16) (probabilities : Values) : EdgeMaps :=
  { maps with
    weight := probabilities.foldl (fun weight value =>
      Function.update weight (edgeTo source value) value.2) maps.weight }

def accumulate (uniform : ℚ) : Values → ℚ → Option UInt16
  | [], _ => none
  | value :: rest, before =>
      let temp := before + value.2
      if uniform < temp then some value.1 else accumulate uniform rest temp

def select (uniform : ℚ) (probabilities : Values) : UInt16 :=
  (accumulate uniform probabilities 0).getD (probabilities.getLastD (0, 0)).1

def learn (gradient : EdgeMaps → UInt16 → Values → EdgeMaps × List ℚ) (sorting : Sorting)
    (config : PolicyConfig) (maps : EdgeMaps) (source : UInt16) (values : Values)
    (draws : PolicyDraws) : Option (EdgeMaps × UInt16) :=
  match values with
  | [] => some (maps, 0)
  | [only] => some (maps, only.1)
  | values =>
      let step := gradient maps source values
      (strategy config.epsilon step.2 draws.pivots).map fun weights =>
        let probabilities := (values.map Prod.fst).zip weights
        (step.1.setWeights source probabilities,
          select draws.uniform (sorting.sort probabilities))

def weightedPolicyLearner (sorting : Sorting) (config : PolicyConfig) :
    EdgeMaps → UInt16 → Values → PolicyDraws → Option (EdgeMaps × UInt16) :=
  learn (fun maps source values =>
    (maps, WeightedPolicyLearner.gradient config maps source values)) sorting config

def fairActionLearner (sorting : Sorting) (config : PolicyConfig) :
    EdgeMaps → UInt16 → Values → PolicyDraws → Option (EdgeMaps × UInt16) :=
  learn (fun maps source values =>
    (maps, FairActionLearner.gradient config maps source values)) sorting config

def gradientPolicyLearner (exp : ℚ → ℚ) (sorting : Sorting) (config : PolicyConfig)
    (currentTime : ℚ) :
    EdgeMaps → UInt16 → Values → PolicyDraws → Option (EdgeMaps × UInt16) :=
  learn (GradientPolicyLearner.gradient exp config currentTime) sorting config

inductive Learner where
  | weightedPolicy
  | fairAction
  | gradientPolicy
  deriving DecidableEq, Repr

def Learner.gradient (exp : ℚ → ℚ) (config : PolicyConfig) (currentTime : ℚ) :
    Learner → EdgeMaps → UInt16 → Values → EdgeMaps × List ℚ
  | .weightedPolicy, maps, source, values =>
      (maps, WeightedPolicyLearner.gradient config maps source values)
  | .fairAction, maps, source, values =>
      (maps, FairActionLearner.gradient config maps source values)
  | .gradientPolicy, maps, source, values =>
      GradientPolicyLearner.gradient exp config currentTime maps source values

/-- `operator()` of the learner; only one of the three looks at the clock. -/
def Learner.call (exp : ℚ → ℚ) (sorting : Sorting) (config : PolicyConfig) (currentTime : ℚ) :
    Learner → EdgeMaps → UInt16 → Values → PolicyDraws → Option (EdgeMaps × UInt16)
  | .weightedPolicy => weightedPolicyLearner sorting config
  | .fairAction => fairActionLearner sorting config
  | .gradientPolicy => gradientPolicyLearner exp sorting config currentTime

end RlAqs
