import RlAqs.Library.Reach
import RlAqs.Library.Worklist
import RlAqs.Network.GraphCore
import Mathlib.Data.Rat.Defs
import Mathlib.Logic.Function.Basic

/-!
The network generators of `WEvonet`: `createBBVGraph`, which grows the network vertex by
vertex, and `createERGraph`, which takes a random graph and removes its cycles. A vertex is
its position in the vertex list. The properties that start at zero and are not read here are
left out.
-/

namespace RlAqs

/-- The routines of Boost and of the standard library, with their contracts. -/
structure Routines where
  sort : (Nat → ℚ) → List Nat → List Nat
  sort_perm : ∀ rate vertices, (sort rate vertices).Perm vertices
  sort_descending : ∀ rate vertices,
    (sort rate vertices).Pairwise fun first second => rate second ≤ rate first
  /-- The out-edges of a vertex are a set, which is iterated in the order of the addresses. -/
  outOrder : List (Nat × Nat) → List (Nat × Nat)
  outOrder_perm : ∀ edges, (outOrder edges).Perm edges
  /-- The vertices in the order `breadth_first_visit` discovers them. -/
  breadthFirstVisit : List (Nat × Nat) → Nat → List Nat
  discovered_nodup : ∀ edges root, (breadthFirstVisit edges root).Nodup
  mem_discovered : ∀ edges root vertex, vertex ∈ breadthFirstVisit edges root ↔
    Relation.ReflTransGen (Reach.Edge edges) root vertex
  /-- `none` is the exception `not_a_dag`. -/
  topologicalSort : Nat → List (Nat × Nat) → Option (List Nat)
  topological_perm : ∀ size edges order, topologicalSort size edges = some order →
    order.Perm (List.range size)
  topological_forward : ∀ size edges order, topologicalSort size edges = some order →
    ∀ edge ∈ edges, order.idxOf edge.1 < order.idxOf edge.2
  /-- The edges `depth_first_search` reports to `back_edge`. -/
  backEdges : Nat → List (Nat × Nat) → List (Nat × Nat)

structure Settings where
  fixedEdgeWeight : ℚ
  maxArrivalRate : ℚ
  boostArrival : ℚ
  boostEdge : ℚ
  maxEdges : UInt32

def maxOutdegree : UInt32 := 4294967295

structure Draws where
  /-- The draws of `vertex_arrival_rng`, in order. -/
  arrival : Nat → ℚ
  /-- What `num_edges_rng` holds when a vertex is added. -/
  numEdges : Nat → Nat
  /-- The draw of `uniform_rng` for an edge of a vertex. -/
  uniform : Nat → Nat → ℚ
  /-- The edges `erdos_renyi_iterator` runs through. -/
  erdosRenyi : List (Nat × Nat)

/-- The default error handler ends the program on an empty range. -/
def gslRngUniformInt (draw bound : Nat) : Option Nat :=
  if bound = 0 then none else some (draw % bound)

structure Network extends Graph where
  /-- The edges are kept in sets. -/
  simple : edges.Nodup
  vertexIndex : Nat → Nat
  arrivalRate : Nat → ℚ
  serviceRate : Nat → ℚ
  edgeWeight : Nat × Nat → ℚ
  edgeIndex : Nat × Nat → Nat

namespace Network

def ofSize (size : Nat) : Network where
  size := size
  edges := []
  inside := by simp
  simple := List.nodup_nil
  vertexIndex _ := 0
  arrivalRate _ := 0
  serviceRate _ := 0
  edgeWeight _ := 0
  edgeIndex _ := 0

def addVertex (network : Network) : Network :=
  { network with
    size := network.size + 1
    inside := fun edge member =>
      have bound := network.inside edge member
      ⟨Nat.lt_succ_of_lt bound.1, Nat.lt_succ_of_lt bound.2⟩ }

def addEdge (network : Network) (source target : Nat) : Network :=
  if admitted : (source < network.size ∧ target < network.size) ∧
      (source, target) ∉ network.edges then
    { network with
      edges := network.edges ++ [(source, target)]
      inside := fun edge member => by
        rcases List.mem_append.mp member with old | new
        · exact network.inside edge old
        · rw [List.mem_singleton.mp new]
          exact admitted.1
      simple := by simpa using List.Nodup.concat admitted.2 network.simple }
  else network

def removeEdges (network : Network) (edges : List (Nat × Nat)) : Network :=
  { network with
    edges := network.edges.filter fun edge => edge ∉ edges
    inside := fun edge member => network.inside edge (List.mem_of_mem_filter member)
    simple := network.simple.filter _ }

def outEdges (routines : Routines) (network : Network) (vertex : Nat) : List (Nat × Nat) :=
  routines.outOrder (network.edges.filter fun edge => edge.1 = vertex)

def setRates (settings : Settings) (draw : ℚ) (vertex : Nat) (network : Network) : Network :=
  let arrival := draw * settings.maxArrivalRate
  { network with
    vertexIndex := Function.update network.vertexIndex vertex vertex
    arrivalRate := Function.update network.arrivalRate vertex arrival
    serviceRate := Function.update network.serviceRate vertex (settings.boostArrival * arrival) }

def assignEdgeWeights (routines : Routines) (vertex : Nat) (network : Network) : Network :=
  let degree := network.outDegree vertex
  { network with
    edgeWeight := (network.outEdges routines vertex).foldl
      (fun weights edge => Function.update weights edge (1 / degree)) network.edgeWeight }

/-- The counter `num_edges` has 16 bits. -/
def assignEdgeIndices (network : Network) : Network :=
  { network with
    edgeIndex := (network.edges.foldl
      (fun (state : (Nat × Nat → Nat) × Nat) edge =>
        (Function.update state.1 edge state.2, (state.2 + 1) % 65536))
      (network.edgeIndex, 0)).1 }

end Network

/-! `epidemic_visit`, and the visitor that determines the induced strengths. -/

structure Visitor (σ : Type*) where
  discoverVertex : Nat → σ → σ
  examineVertex : Nat → σ → σ
  examineEdge : Nat × Nat → σ → σ
  finishVertex : Nat → σ → σ

namespace Visitor

variable {σ : Type*} (visitor : Visitor σ) (outEdges : Nat → List (Nat × Nat))

def visit (vertex : Nat) (state : σ) : σ :=
  visitor.finishVertex vertex
    ((outEdges vertex).foldl
      (fun state edge => visitor.discoverVertex vertex (visitor.examineEdge edge state))
      (visitor.examineVertex vertex state))

def epidemicVisit (fuel root : Nat) (state : σ) : Option σ :=
  Worklist.drain (visitor.visit outEdges) (fun vertex => (outEdges vertex).map Prod.snd) fuel
    [root] (visitor.discoverVertex root state)

end Visitor

/-- The two maps of `balance_vertex_strength`, under the index of the vertex. -/
structure Strengths where
  diff : Nat → ℚ
  apply : Nat → ℚ

def Strengths.zero : Strengths where
  diff _ := 0
  apply _ := 0

def edgeFactor (settings : Settings) (network : Network) (edge : Nat × Nat) : ℚ :=
  if settings.fixedEdgeWeight > 0 then settings.fixedEdgeWeight
  else network.edgeWeight edge * settings.boostEdge

def epidemicVertexArrivalVisitor (settings : Settings) (network : Network) :
    Visitor Strengths where
  discoverVertex _ strengths := strengths
  examineVertex vertex strengths :=
    let index := network.vertexIndex vertex
    if strengths.diff index = 0 then
      { strengths with
        apply := Function.update strengths.apply index
          (settings.boostArrival * network.arrivalRate vertex) }
    else strengths
  examineEdge edge strengths :=
    let target := network.vertexIndex edge.2
    let update := strengths.apply (network.vertexIndex edge.1) * edgeFactor settings network edge
    { diff := Function.update strengths.diff target (strengths.diff target + update)
      apply := Function.update strengths.apply target (strengths.apply target + update) }
  finishVertex vertex strengths :=
    { strengths with apply := Function.update strengths.apply (network.vertexIndex vertex) 0 }

namespace Network

def applyEnduced (diff : Nat → ℚ) (network : Network) (vertex : Nat) : Network :=
  { network with
    serviceRate := Function.update network.serviceRate vertex
      (network.serviceRate vertex + diff (network.vertexIndex vertex)) }

def balanceVertexStrength (routines : Routines) (settings : Settings) (fuel vertex : Nat)
    (network : Network) : Option Network :=
  ((epidemicVertexArrivalVisitor settings network).epidemicVisit (network.outEdges routines)
      fuel vertex Strengths.zero).map fun strengths =>
    (routines.breadthFirstVisit network.edges vertex).foldl (applyEnduced strengths.diff) network

/-! `advance` and the two generators. -/

/-- The draw is less than the share `temp / accumServiceRate`, of doubles: over a zero a positive
number is infinite, and zero is no number. -/
def BelowShare (draw temp accumServiceRate : ℚ) : Prop :=
  if accumServiceRate = 0 then 0 < temp else draw < temp / accumServiceRate

instance (draw temp accumServiceRate : ℚ) : Decidable (BelowShare draw temp accumServiceRate) :=
  inferInstanceAs (Decidable (ite _ _ _))

/-- The scan for the vertex a draw selects; one that is linked already is passed over. -/
def connect (vertex : Nat) (accumServiceRate draw : ℚ) : List Nat → ℚ → Network → Network
  | [], _, network => network
  | target :: rest, before, network =>
      let temp := before + network.serviceRate target
      if BelowShare draw temp accumServiceRate then
        if (vertex, target) ∈ network.edges then
          connect vertex accumServiceRate draw rest temp network
        else network.addEdge vertex target
      else connect vertex accumServiceRate draw rest temp network

def drawEdges (settings : Settings) (draw vertices : Nat) : Option Nat :=
  if settings.maxEdges = maxOutdegree then some vertices
  else if settings.maxEdges.toNat > vertices then
    (gslRngUniformInt draw vertices).map (· + 1)
  else (gslRngUniformInt draw settings.maxEdges.toNat).map (· + 1)

def attach (routines : Routines) (settings : Settings) (draws : Draws) (edges : Nat)
    (network : Network) : Network :=
  let vertices := network.size
  let accumServiceRate := ((List.range vertices).map network.serviceRate).sum
  let serviceRateOrder := routines.sort network.serviceRate (List.range vertices)
  (List.range edges).foldl
    (fun network edge =>
      connect vertices accumServiceRate (draws.uniform vertices edge) serviceRateOrder 0 network)
    (network.addVertex.setRates settings (draws.arrival vertices) vertices)

def advanceStep (routines : Routines) (settings : Settings) (draws : Draws) (fuel : Nat)
    (network : Network) : Option Network :=
  (drawEdges settings (draws.numEdges network.size) network.size).bind fun edges =>
    ((network.attach routines settings draws edges).assignEdgeWeights routines
      network.size).balanceVertexStrength routines settings fuel network.size

def advance (routines : Routines) (settings : Settings) (draws : Draws) (fuel : Nat) :
    Nat → Network → Option Network
  | 0, network => some network
  | steps + 1, network =>
      (advanceStep routines settings draws fuel network).bind
        (advance routines settings draws fuel steps)

def createBBVGraph (routines : Routines) (settings : Settings) (draws : Draws) (fuel : Nat)
    (size : UInt32) : Option Network :=
  (advance routines settings draws fuel (size - 1).toNat
      ((ofSize 0).addVertex.setRates settings (draws.arrival 0) 0)).map assignEdgeIndices

/-- Every vertex in turn takes the next draw; `offset` draws are used up already. -/
def assignRates (settings : Settings) (draws : Draws) (offset : Nat) (network : Network) :
    Network :=
  (List.range network.size).foldl
    (fun network vertex => network.setRates settings (draws.arrival (offset + vertex)) vertex)
    network

def removeCycles (routines : Routines) (network : Network) : Network :=
  network.removeEdges (routines.backEdges network.size network.edges)

/-- The random graph up to the balancing. -/
def erdosRenyi (routines : Routines) (settings : Settings) (draws : Draws) (size : UInt32) :
    Network :=
  let drawn := draws.erdosRenyi.foldl (fun network edge => network.addEdge edge.1 edge.2)
    (ofSize size.toNat)
  let rated := (drawn.assignRates settings draws 0).assignEdgeIndices
  ((rated.removeCycles routines).assignRates settings draws size.toNat).assignEdgeIndices

def balanceInOrder (routines : Routines) (settings : Settings) (fuel : Nat) :
    List Nat → Network → Option Network
  | [], network => some network
  | vertex :: rest, network =>
      if network.outDegree vertex > 0 then
        (network.balanceVertexStrength routines settings fuel vertex).bind
          (balanceInOrder routines settings fuel rest)
      else balanceInOrder routines settings fuel rest network

def createERGraph (routines : Routines) (settings : Settings) (draws : Draws) (fuel : Nat)
    (size : UInt32) : Option Network :=
  let network := erdosRenyi routines settings draws size
  (routines.topologicalSort network.size network.edges).bind fun order =>
    balanceInOrder routines settings fuel order
      ((List.range network.size).foldl (fun network vertex =>
        network.assignEdgeWeights routines vertex) network)

end Network

end RlAqs
