import RlAqs.Routing.RoutingCore
import RlAqs.Library.Runs

/-!
The hook of `FullRLResponseHandler` into the total regret, within the handler and on its own. On
its own the predictions are part of the acknowledgement and may be any numbers.
-/

namespace RlAqs

structure Regret where
  actualReward : Nat → ℚ
  totalReward : Nat × Nat → ℚ
  regretTotal : Nat → ℚ

def Regret.fresh : Regret where
  actualReward := fun _ => 0
  totalReward := fun _ => 0
  regretTotal := fun _ => 0

structure Acknowledgement where
  vertex : Nat
  origin : Int
  reward : ℚ
  /-- What the network predicts for a target. -/
  prediction : Nat → ℚ

namespace FullRLResponseHandler

variable {graph : Graph} (sorting : Sorting) (out : OutEdges graph)

def credit (origin : Int) (reward : ℚ) (value : UInt16 × ℚ) : ℚ :=
  if origin = value.1.toNat then reward else value.2

def creditAll (vertex : Nat) (origin : Int) (reward : ℚ) (values : Values)
    (totalReward : Nat × Nat → ℚ) : Option (Nat × Nat → ℚ) :=
  values.foldlM (fun totalReward value =>
    (out.edge vertex value.1.toNat).map fun e =>
      Function.update totalReward e (totalReward e + credit origin reward value)) totalReward

def front (values : Values) : UInt16 := ((sorting.sort values).headD (0, 0)).1

def regret (vertex : Nat) (origin : Int) (reward : ℚ) (state : Regret) (values : Values) :
    Option Regret := do
  let actual := state.actualReward vertex + reward
  let totalReward ← creditAll out vertex origin reward values state.totalReward
  let e ← out.edge vertex (front sorting values).toNat
  return {
    actualReward := Function.update state.actualReward vertex actual
    totalReward := totalReward
    regretTotal := Function.update state.regretTotal vertex (totalReward e - actual) }

/-- The handler with its hook, which only a vertex with a choice reaches. -/
def updateRegret {N : Type} (agent : Agent N) (state : Router N × Regret) (entry : Entry)
    (reward : ℚ) (draws : RoutingDraws) : Option (Router N × Regret) :=
  let vertex := entry.destination.toNat
  let kept :=
    if (out.targets vertex).length > 1 ∧ agent.regretTotal then
      regret agent.sorting out vertex entry.origin reward state.2
        (values agent state.1 vertex draws.state state.1.networks (out.targets vertex)).2
    else some state.2
  kept.bind fun kept =>
    (update agent out state.1 entry reward draws).map fun router => (router, kept)

def answers (ack : Acknowledgement) : Values :=
  (out.targets ack.vertex).map fun target => (UInt16.ofNat target, ack.prediction target)

def regretStep (state : Regret) (ack : Acknowledgement) : Option Regret :=
  if (out.targets ack.vertex).length > 1 then
    regret sorting out ack.vertex ack.origin ack.reward state (answers out ack)
  else some state

end FullRLResponseHandler

end RlAqs
