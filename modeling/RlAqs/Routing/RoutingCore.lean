import RlAqs.Learner.ListingCore
import RlAqs.Network.GraphCore
import RlAqs.Queue.EntryCore
import RlAqs.Statistics.StatisticsCore

/-!
How the next vertex of a job is chosen: the selections of `src/core/rl`, and the response
handlers of `src/core/event`, which store the action that a selection finds later. The
networks behind the handlers are a parameter, as are the state vectors they are shown. Where
the code would follow an edge that is not there, or go on with a number that is none, the
result is `none`.
-/

namespace RlAqs

/-- `out_edges` of every vertex: a set, which is iterated in the order of the addresses. -/
structure OutEdges (graph : Graph) where
  targets : Nat → List Nat
  mem_targets : ∀ source target, target ∈ targets source ↔ (source, target) ∈ graph.edges
  distinct : ∀ source, (targets source).Nodup

def OutEdges.edge {graph : Graph} (out : OutEdges graph) (source : Nat) (target : Int) :
    Option (Nat × Nat) :=
  if 0 ≤ target ∧ target.toNat ∈ out.targets source then some (source, target.toNat) else none

theorem OutEdges.edge_eq_some {graph : Graph} {out : OutEdges graph} {source : Nat} {target : Int}
    {edge : Nat × Nat} (found : out.edge source target = some edge) :
    edge = (source, target.toNat) ∧ target.toNat ∈ out.targets source := by
  unfold OutEdges.edge at found
  split at found
  · rename_i present
    exact ⟨(Option.some.inj found).symm, present.2⟩
  · cases found

/-! The policies. -/

/-- The integer draw is the first of `pivots`; a counter of 16 bits sets the probabilities. -/
def epsilonGreedy (sorting : Sorting) (config : PolicyConfig) (maps : EdgeMaps)
    (source : UInt16) (values : Values) (draws : PolicyDraws) : Option (EdgeMaps × UInt16) :=
  match values with
  | [] => some (maps, 0)
  | [only] => some (maps, only.1)
  | values =>
      let sorted := sorting.sort values
      let nMinusOne : ℚ := sorted.length - 1
      let index := UInt16.ofNat (draws.pivots 0 % (sorted.length - 1) + 1)
      let action :=
        if draws.uniform ≤ 1 - config.epsilon then (sorted.headD (0, 0)).1
        else (sorted.getD index.toNat (0, 0)).1
      let probabilities := sorted.mapIdx fun i value =>
        (value.1, if i = 0 then 1 - config.epsilon else config.epsilon / nMinusOne)
      if sorted.length < 65536 then some (maps.setWeights source probabilities, action) else none

inductive RlPolicy where
  | epsilonGreedy
  | learner (learner : Learner)
  deriving DecidableEq, Repr

/-- The networks of a response handler: `present` runs one of them on a state vector, and
`train` moves it from what it was shown last towards the target. -/
structure Approximator (N : Type) where
  present : N → Nat → List ℚ → N × ℚ
  train : N → Nat → ℚ → N

/-- What the policy and the response handler are constructed with. `randomIter` is a field
that no constructor sets. -/
structure Agent (N : Type) where
  policy : RlPolicy
  config : PolicyConfig
  exp : ℚ → ℚ
  sorting : Sorting
  qAlpha : ℚ
  qLambda : ℚ
  outsource : Bool
  regretTotal : Bool
  incentiveDeviate : Bool
  randomIter : Nat
  networks : Approximator N

def Agent.call {N : Type} (agent : Agent N) (currentTime : ℚ) :
    EdgeMaps → UInt16 → Values → PolicyDraws → Option (EdgeMaps × UInt16) :=
  match agent.policy with
  | .epsilonGreedy => epsilonGreedy agent.sorting agent.config
  | .learner learner => learner.call agent.exp agent.sorting agent.config currentTime

structure Router (N : Type) where
  nextAction : Nat → Int
  maps : EdgeMaps
  qVal : Nat × Nat → ℚ
  qStats : Nat → OnlineStats
  networks : N

structure RoutingDraws where
  policy : PolicyDraws
  state : Nat × Nat → List ℚ

section Selection

variable {N : Type} {graph : Graph} (agent : Agent N) (out : OutEdges graph)

def qValues (router : Router N) (vertex : Nat) : Values :=
  (out.targets vertex).map fun target => (UInt16.ofNat target, router.qVal (vertex, target))

def OnPolicySelection.select (router : Router N) (source : Nat) (currentTime : ℚ)
    (draws : PolicyDraws) : Option (Router N × Int) :=
  let destination := router.nextAction source
  if destination < 0 then
    (agent.call currentTime router.maps (UInt16.ofNat source) (qValues out router source) draws).map
      fun (maps, action) => ({ router with maps := maps }, action.toNat)
  else some (router, destination)

/-- `std::sort` of the positions of the out-edges by descending weight. -/
structure WeightSorting where
  sort : List ℚ → List Nat
  sort_perm : ∀ weights, (sort weights).Perm (List.range weights.length)
  sort_descending : ∀ weights,
    (sort weights).Pairwise fun first second => weights.getD second 0 ≤ weights.getD first 0

namespace RandomSelection

def pick (uniform : ℚ) (edges : List Nat) (weights : List ℚ) : List Nat → ℚ → Int
  | [], _ => -1
  | position :: rest, before =>
      let temp := before + weights.getD position 0
      if uniform < temp then edges.getD position 0 else pick uniform edges weights rest temp

/-- The stored action is not looked at. -/
def select (sorting : WeightSorting) (router : Router N) (source : Nat) (uniform : ℚ) : Int :=
  match out.targets source with
  | [] => -1
  | [target] => target
  | edges =>
      let weights := edges.map fun target => router.maps.weight (source, target)
      let destination := pick uniform edges weights (sorting.sort weights) 0
      if destination = -1 then edges.getD (edges.length - 1) 0 else destination

end RandomSelection

end Selection

/-! The response handlers. -/

section Response

variable {N : Type} {graph : Graph} (agent : Agent N) (out : OutEdges graph)

def Router.setNextAction (router : Router N) (vertex : Nat) (newAction : UInt16) : Router N :=
  { router with nextAction := Function.update router.nextAction vertex newAction.toNat }

/-- The only action: its value is the mean of the rewards. -/
def Router.deterministic (router : Router N) (index vertex target : Nat) (reward : ℚ) :
    Option (Router N) :=
  let stats := (router.qStats index).push reward
  stats.mean.map fun mean =>
    { router with
      qStats := Function.update router.qStats index stats
      qVal := Function.update router.qVal (vertex, target) mean }.setNextAction vertex
        (UInt16.ofNat target)

/-- `update`, with the policy that it asks. A policy that keeps a state of its own is another
function at every call. -/
def RLResponseHandler.updateWith
    (policy : EdgeMaps → UInt16 → Values → Option (EdgeMaps × UInt16)) (qAlpha qLambda : ℚ)
    (out : OutEdges graph) (router : Router N) (entry : Entry) (reward : ℚ) : Option (Router N) :=
  let vertex := entry.destination.toNat
  match out.targets vertex with
  | [] => some (router.setNextAction vertex 0)
  | [target] =>
      router.deterministic (router.maps.index (vertex, target) % 65536) vertex target reward
  | _ => do
      let (maps, newAction) ← policy router.maps (UInt16.ofNat vertex) (qValues out router vertex)
      let oldE ← out.edge vertex entry.origin
      let newE ← out.edge vertex newAction.toNat
      let oldQ := router.qVal oldE
      let newQ := oldQ + qAlpha * reward + (qAlpha * qLambda * router.qVal newE - qAlpha * oldQ)
      return { router with
        maps := maps
        qVal := Function.update router.qVal oldE newQ }.setNextAction vertex newAction

def RLResponseHandler.update (router : Router N) (entry : Entry) (reward : ℚ)
    (draws : RoutingDraws) : Option (Router N) :=
  updateWith (fun maps source values => agent.call entry.arrival maps source values draws.policy)
    agent.qAlpha agent.qLambda out router entry reward

namespace FullRLResponseHandler

def index (maps : EdgeMaps) (edge : Nat × Nat) : Nat :=
  if agent.outsource then edge.2 % 65536 else maps.index edge % 65536

def values (router : Router N) (vertex : Nat) (state : Nat × Nat → List ℚ) :
    N → List Nat → N × Values
  | networks, [] => (networks, [])
  | networks, target :: rest =>
      let (networks, value) := agent.networks.present networks
        (index agent router.maps (vertex, target)) (state (vertex, target))
      let (networks, later) := values router vertex state networks rest
      (networks, (UInt16.ofNat target, value) :: later)

def updateWith (agent : Agent N)
    (policy : EdgeMaps → UInt16 → Values → Option (EdgeMaps × UInt16))
    (out : OutEdges graph) (router : Router N) (entry : Entry) (reward : ℚ)
    (state : Nat × Nat → List ℚ) : Option (Router N) :=
  let vertex := entry.destination.toNat
  match out.targets vertex with
  | [] => some (router.setNextAction vertex 0)
  | [target] =>
      router.deterministic (index agent router.maps (vertex, target)) vertex target reward
  | targets => do
      let (networks, values) := values agent router vertex state router.networks targets
      let values := hooks agent.sorting agent.regretTotal agent.incentiveDeviate values
      let (maps, newAction) ← policy router.maps (UInt16.ofNat vertex) values
      let oldE ← out.edge vertex entry.origin
      let newE ← out.edge vertex newAction.toNat
      let (networks, prediction) := agent.networks.present networks
        (index agent router.maps newE) (state newE)
      let networks := agent.networks.train networks (index agent router.maps oldE)
        (reward + agent.qLambda * prediction)
      let (networks, newQ) := agent.networks.present networks (index agent router.maps oldE)
        (state oldE)
      return { router with
        maps := maps
        networks := networks
        qVal := Function.update router.qVal oldE newQ }.setNextAction vertex newAction

def update (router : Router N) (entry : Entry) (reward : ℚ) (draws : RoutingDraws) :
    Option (Router N) :=
  updateWith agent
    (fun maps source values => agent.call entry.arrival maps source values draws.policy) out router
    entry reward draws.state

end FullRLResponseHandler

namespace HybridFullRLResponseHandler

/-- The mean of the rewards while an edge warms up, the prediction afterwards. -/
def value (router : Router N) (networks : N) (edge : Nat × Nat) (state : List ℚ) :
    Option (N × ℚ) :=
  let stats := router.qStats (router.maps.index edge)
  if stats.n < agent.randomIter then stats.mean.map fun mean => (networks, mean)
  else some (agent.networks.present networks (router.maps.index edge) state)

def values (router : Router N) (vertex : Nat) (state : Nat × Nat → List ℚ) :
    N → List Nat → Option (N × Values)
  | networks, [] => some (networks, [])
  | networks, target :: rest => do
      let (networks, value) ← value agent router networks (vertex, target) (state (vertex, target))
      let (networks, later) ← values router vertex state networks rest
      return (networks, (UInt16.ofNat target, value) :: later)

def updateWith (agent : Agent N)
    (policy : EdgeMaps → UInt16 → Values → Option (EdgeMaps × UInt16))
    (out : OutEdges graph) (router : Router N) (entry : Entry) (reward : ℚ)
    (state : Nat × Nat → List ℚ) : Option (Router N) :=
  let vertex := entry.destination.toNat
  match out.targets vertex with
  | [] => some (router.setNextAction vertex 0)
  | [target] =>
      router.deterministic (router.maps.index (vertex, target) % 65536) vertex target reward
  | targets => do
      let (networks, values) ← values agent router vertex state router.networks targets
      let (maps, newAction) ← policy router.maps (UInt16.ofNat vertex) values
      let oldE ← out.edge vertex entry.origin
      let newE ← out.edge vertex newAction.toNat
      let index := router.maps.index oldE
      let stats := router.qStats index
      let router := { router with
        maps := maps
        qStats := Function.update router.qStats index
          (if stats.n < agent.randomIter then stats.push reward else stats) }
      let (networks, prediction) := agent.networks.present networks (router.maps.index newE)
        (state newE)
      let networks := agent.networks.train networks index (reward + agent.qLambda * prediction)
      let (networks, newQ) ← value agent router networks oldE (state oldE)
      return { router with
        networks := networks
        qVal := Function.update router.qVal oldE newQ }.setNextAction vertex newAction

def update (router : Router N) (entry : Entry) (reward : ℚ) (draws : RoutingDraws) :
    Option (Router N) :=
  updateWith agent
    (fun maps source values => agent.call entry.arrival maps source values draws.policy) out router
    entry reward draws.state

end HybridFullRLResponseHandler

inductive ResponseHandler where
  | rl
  | fullRl
  | hybridFullRl
  deriving DecidableEq, Repr

def ResponseHandler.updateWith (handler : ResponseHandler) (agent : Agent N)
    (policy : EdgeMaps → UInt16 → Values → Option (EdgeMaps × UInt16))
    (out : OutEdges graph) (router : Router N) (entry : Entry) (reward : ℚ)
    (state : Nat × Nat → List ℚ) : Option (Router N) :=
  match handler with
  | .rl => RLResponseHandler.updateWith policy agent.qAlpha agent.qLambda out router entry reward
  | .fullRl => FullRLResponseHandler.updateWith agent policy out router entry reward state
  | .hybridFullRl =>
      HybridFullRLResponseHandler.updateWith agent policy out router entry reward state

def ResponseHandler.update (handler : ResponseHandler) (router : Router N) (entry : Entry)
    (reward : ℚ) (draws : RoutingDraws) : Option (Router N) :=
  match handler with
  | .rl => RLResponseHandler.update agent out router entry reward draws
  | .fullRl => FullRLResponseHandler.update agent out router entry reward draws
  | .hybridFullRl => HybridFullRLResponseHandler.update agent out router entry reward draws

end Response

end RlAqs
