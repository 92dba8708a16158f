import RlAqs.Routing.EstimatesBounded

/-!
The networks of the response handlers under observation. `train` takes its input from the neurons
of the network, where the last `present` left it: so it is recorded which vector each network was
presented with last, and at which turn, and with what it was trained.
-/

namespace RlAqs

variable {N : Type} {graph : Graph}

/-- Any policy. None of them writes the index of an edge; one with a state of its own is another
function at every call. -/
structure EdgePolicy where
  call : EdgeMaps → UInt16 → Values → Option (EdgeMaps × UInt16)
  index_kept : ∀ maps source values answer, call maps source values = some answer →
    answer.1.index = maps.index

namespace HybridFullRLResponseHandler

def newAction (agent : Agent N)
    (policy : EdgeMaps → UInt16 → Values → Option (EdgeMaps × UInt16))
    (out : OutEdges graph) (router : Router N) (entry : Entry) (state : Nat × Nat → List ℚ) :
    Option UInt16 := do
  let vertex := entry.destination.toNat
  let (_, values) ← values agent router vertex state router.networks (out.targets vertex)
  let (_, newAction) ← policy router.maps (UInt16.ofNat vertex) values
  return newAction

end HybridFullRLResponseHandler

namespace ResponseHandler

def network (handler : ResponseHandler) (agent : Agent N) (maps : EdgeMaps) (edge : Nat × Nat) :
    Nat :=
  match handler with
  | .hybridFullRl => maps.index edge
  | _ => FullRLResponseHandler.index agent maps edge

/-- Whether the value of an edge is the prediction of its network: in the hybrid handler it is not
as long as the edge warms up. -/
def predicts (handler : ResponseHandler) (agent : Agent N) (router : Router N)
    (edge : Nat × Nat) : Bool :=
  match handler with
  | .hybridFullRl => !decide ((router.qStats (router.maps.index edge)).n < agent.randomIter)
  | _ => true

end ResponseHandler

inductive NetworkTurn
  | acknowledged (policy : EdgePolicy) (entry : Entry) (state : Nat × Nat → List ℚ)
  | selected (policy : EdgePolicy) (source : Nat)

def NetworkTurn.step (handler : ResponseHandler) (agent : Agent N) (out : OutEdges graph)
    (router : Router N) : NetworkTurn → Option (Router N)
  | acknowledged policy entry state =>
      entry.getReward.bind fun reward =>
        handler.updateWith agent policy.call out router entry reward state
  | selected policy source =>
      if router.nextAction source < 0 then
        (policy.call router.maps (UInt16.ofNat source) (qValues out router source)).map
          fun answer => { router with maps := answer.1 }
      else some router

/-! The observation. -/

/-- The networks, with the vector each was presented with last and the turn of that, and the
trainings so far with what the network had been presented with. -/
structure Observed (N : Type) where
  networks : N
  now : Nat
  presented : Nat → Option (Nat × List ℚ)
  trained : List (Nat × Option (Nat × List ℚ))

namespace Observed

def next (observed : Observed N) : Observed N := { observed with now := observed.now + 1 }

def present (observed : Observed N) (networks : N) (index : Nat) (inputs : List ℚ) :
    Observed N :=
  { observed with
    networks := networks
    presented := Function.update observed.presented index (some (observed.now, inputs)) }

def train (observed : Observed N) (networks : N) (index : Nat) : Observed N :=
  { observed with
    networks := networks
    trained := observed.trained ++ [(index, observed.presented index)] }

end Observed

def Approximator.observed (approximator : Approximator N) : Approximator (Observed N) where
  present observed index inputs :=
    let (networks, prediction) := approximator.present observed.networks index inputs
    (observed.present networks index inputs, prediction)
  train observed index target :=
    observed.train (approximator.train observed.networks index target) index

def Agent.observed (agent : Agent N) : Agent (Observed N) :=
  { agent with networks := agent.networks.observed }

namespace Router

def observed (router : Router N) : Router (Observed N) :=
  { router with
    networks :=
      { networks := router.networks, now := 0, presented := fun _ => none, trained := [] } }

def unobserved (router : Router (Observed N)) : Router N :=
  { router with networks := router.networks.networks }

def tick (router : Router (Observed N)) : Router (Observed N) :=
  { router with networks := router.networks.next }

end Router

namespace NetworkTurn

def watch (handler : ResponseHandler) (agent : Agent N) (out : OutEdges graph)
    (router : Router (Observed N)) (turn : NetworkTurn) : Option (Router (Observed N)) :=
  turn.step handler agent.observed out router.tick

/-- Whatever the turn trains is the network of the edge just used, and the vector that network was
presented with last is the state of that edge, filled at this turn. -/
def TrainsOnState (handler : ResponseHandler) (agent : Agent N) (out : OutEdges graph)
    (router : Router (Observed N)) (turn : NetworkTurn) : Prop :=
  ∀ next, turn.watch handler agent out router = some next →
    ∀ training ∈ next.networks.trained.drop router.networks.trained.length,
      match turn with
      | acknowledged _ entry state =>
          let oldE := (entry.destination.toNat, entry.origin.toNat)
          training =
            (handler.network agent router.maps oldE, some (router.networks.now + 1, state oldE))
      | selected _ _ => False

/-- At a vertex with a choice the hybrid handler has to predict the value of the edge just used, or
to choose that edge again. -/
def ShowsState (handler : ResponseHandler) (agent : Agent N) (out : OutEdges graph)
    (router : Router N) (turn : NetworkTurn) : Prop :=
  match handler, turn with
  | .hybridFullRl, acknowledged policy entry state =>
      1 < (out.targets entry.destination.toNat).length →
        ¬ (router.qStats (router.maps.index (entry.destination.toNat, entry.origin.toNat))).n <
            agent.randomIter ∨
          (HybridFullRLResponseHandler.newAction agent policy.call out router entry state).map
            UInt16.toNat = some entry.origin.toNat
  | _, _ => True

end NetworkTurn

def OwnNetworks (handler : ResponseHandler) (agent : Agent N) (out : OutEdges graph)
    (maps : EdgeMaps) : Prop :=
  ∀ vertex, ((out.targets vertex).map fun target =>
    handler.network agent maps (vertex, target)).Nodup

end RlAqs
