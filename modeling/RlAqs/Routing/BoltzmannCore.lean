import RlAqs.Learner.LearnersCore

/-!
`BoltzmannPolicy`. The functions of the C library are a parameter; where the code would go on with
a number that is none, the result is `none`.
-/

namespace RlAqs

structure BoltzmannPolicy where
  tau : ℚ
  exp : ℚ → ℚ
  log10 : ℚ → ℚ
  sorting : Sorting

namespace BoltzmannPolicy

/-- The `exp` of the transformed value, which has to be negative. -/
def energy (policy : BoltzmannPolicy) (value : UInt16 × ℚ) : Option ℚ :=
  if -value.2 > 0 then (divide (-policy.log10 (-value.2)) policy.tau).map policy.exp else none

def probabilities (policy : BoltzmannPolicy) (values : Values) : Option Values :=
  if values.any fun value => value.2 = 0 then
    some (values.map fun value => (value.1, 1 / values.length))
  else do
    let exps ← values.mapM policy.energy
    let probs ← exps.mapM fun x => divide x exps.sum
    return (values.map Prod.fst).zip probs

/-- The variable for the action is a signed one of 16 bits, set to -1 before the loop. -/
def select (uniform : ℚ) (probabilities : Values) : UInt16 :=
  let action := (accumulate uniform probabilities 0).getD 65535
  if action = 65535 then (probabilities.getLastD (0, 0)).1 else action

/-- `operator()`; without an action to choose from the result is that variable. -/
def call (policy : BoltzmannPolicy) (values : Values) (uniform : ℚ) : Option UInt16 :=
  match values with
  | [] => some 65535
  | [only] => some only.1
  | values => (policy.probabilities values).map fun probabilities =>
      select uniform (policy.sorting.sort probabilities)

end BoltzmannPolicy

end RlAqs
