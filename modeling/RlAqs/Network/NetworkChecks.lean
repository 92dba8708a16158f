import RlAqs.Network.NetworkCore
import Mathlib.Algebra.Order.Ring.Rat
import Mathlib.Data.Finset.Prod
import Mathlib.Tactic.Positivity

/-! What the operations of the generators change in a network. -/

namespace RlAqs

namespace Network

theorem edges_length_le (network : Network) :
    network.edges.length ≤ network.size * network.size := by
  have subset : network.edges.toFinset ⊆
      Finset.range network.size ×ˢ Finset.range network.size := by
    intro edge member
    have bound := network.inside edge (List.mem_toFinset.mp member)
    exact Finset.mem_product.mpr
      ⟨Finset.mem_range.mpr bound.1, Finset.mem_range.mpr bound.2⟩
  have card := Finset.card_le_card subset
  rwa [List.toFinset_card_of_nodup network.simple, Finset.card_product, Finset.card_range] at card

theorem outDegree_pos {network : Network} {edge : Nat × Nat} (member : edge ∈ network.edges) :
    0 < network.outDegree edge.1 := by
  unfold Graph.outDegree
  exact List.countP_pos_iff.mpr ⟨edge, member, by simp⟩

theorem mem_outEdges {routines : Routines} {network : Network} {vertex : Nat} {edge : Nat × Nat} :
    edge ∈ network.outEdges routines vertex ↔ edge ∈ network.edges ∧ edge.1 = vertex := by
  rw [outEdges, (routines.outOrder_perm _).mem_iff]
  simp

/-! Links of a new vertex. -/

structure Linked (vertex : Nat) (before after : Network) : Prop where
  size : after.size = before.size
  vertexIndex : after.vertexIndex = before.vertexIndex
  arrivalRate : after.arrivalRate = before.arrivalRate
  serviceRate : after.serviceRate = before.serviceRate
  edgeWeight : after.edgeWeight = before.edgeWeight
  edges : ∃ added, after.edges = before.edges ++ added ∧
    ∀ edge ∈ added, edge.1 = vertex ∧ edge.2 < vertex

theorem Linked.refl (vertex : Nat) (network : Network) : Linked vertex network network :=
  ⟨rfl, rfl, rfl, rfl, rfl, [], by simp, by simp⟩

theorem Linked.trans {vertex : Nat} {first second third : Network}
    (left : Linked vertex first second) (right : Linked vertex second third) :
    Linked vertex first third := by
  obtain ⟨added, grown, old⟩ := left.edges
  obtain ⟨more, grown', old'⟩ := right.edges
  refine ⟨right.size.trans left.size, right.vertexIndex.trans left.vertexIndex,
    right.arrivalRate.trans left.arrivalRate, right.serviceRate.trans left.serviceRate,
    right.edgeWeight.trans left.edgeWeight, added ++ more, ?_, ?_⟩
  · rw [grown', grown, List.append_assoc]
  · intro edge member
    exact (List.mem_append.mp member).elim (old edge) (old' edge)

theorem linked_addEdge {vertex target : Nat} (network : Network) (older : target < vertex) :
    Linked vertex network (network.addEdge vertex target) := by
  unfold addEdge
  split
  · refine ⟨rfl, rfl, rfl, rfl, rfl, [(vertex, target)], rfl, ?_⟩
    intro edge member
    rw [List.mem_singleton.mp member]
    exact ⟨rfl, older⟩
  · exact Linked.refl vertex network

theorem linked_connect {vertex : Nat} (accumServiceRate draw : ℚ) {order : List Nat}
    (older : ∀ target ∈ order, target < vertex) (before : ℚ) (network : Network) :
    Linked vertex network (connect vertex accumServiceRate draw order before network) := by
  induction order generalizing before with
  | nil => exact Linked.refl vertex network
  | cons target rest ih =>
      have later := ih fun other member => older other (List.mem_cons_of_mem _ member)
      simp only [connect]
      split
      · split
        · exact later _
        · exact linked_addEdge network (older target (by simp))
      · exact later _

theorem linked_foldl {vertex : Nat} (accumServiceRate : ℚ) (draw : Nat → ℚ) {order : List Nat}
    (older : ∀ target ∈ order, target < vertex) (links : List Nat) (network : Network) :
    Linked vertex network (links.foldl
      (fun network link => connect vertex accumServiceRate (draw link) order 0 network) network) := by
  induction links generalizing network with
  | nil => exact Linked.refl _ network
  | cons link rest ih =>
      rw [List.foldl_cons]
      exact (linked_connect _ _ older _ network).trans (ih _)

theorem mem_serviceRateOrder {routines : Routines} {rate : Nat → ℚ} {vertices target : Nat} :
    target ∈ routines.sort rate (List.range vertices) ↔ target < vertices := by
  rw [(routines.sort_perm _ _).mem_iff, List.mem_range]

theorem linked_attach (routines : Routines) (settings : Settings) (draws : Draws) (edges : Nat)
    (network : Network) :
    Linked network.size
      (network.addVertex.setRates settings (draws.arrival network.size) network.size)
      (network.attach routines settings draws edges) :=
  linked_foldl _ _ (fun _ member => mem_serviceRateOrder.mp member) _ _

/-! Weights. -/

structure Reweighted (before after : Network) : Prop where
  toGraph : after.toGraph = before.toGraph
  vertexIndex : after.vertexIndex = before.vertexIndex
  arrivalRate : after.arrivalRate = before.arrivalRate
  serviceRate : after.serviceRate = before.serviceRate

theorem updates_apply (edges : List (Nat × Nat)) (value : ℚ) (weights : Nat × Nat → ℚ)
    (edge : Nat × Nat) :
    edges.foldl (fun weights edge => Function.update weights edge value) weights edge =
      if edge ∈ edges then value else weights edge := by
  induction edges generalizing weights with
  | nil => simp
  | cons first rest ih =>
      rw [List.foldl_cons, ih]
      by_cases later : edge ∈ rest
      · simp [later]
      · by_cases same : edge = first
        · simp [same]
        · simp [later, same]

theorem assignEdgeWeights_apply (routines : Routines) (network : Network) (vertex : Nat)
    {edge : Nat × Nat} (member : edge ∈ network.edges) :
    (network.assignEdgeWeights routines vertex).edgeWeight edge =
      if edge.1 = vertex then 1 / (network.outDegree vertex : ℚ) else network.edgeWeight edge := by
  simp only [assignEdgeWeights]
  rw [updates_apply]
  simp only [mem_outEdges, member, true_and]

theorem assignEdgeWeights_pos (routines : Routines) (network : Network) {vertex : Nat}
    {edge : Nat × Nat} (member : edge ∈ network.edges)
    (weighted : edge.1 ≠ vertex → 0 < network.edgeWeight edge) :
    0 < (network.assignEdgeWeights routines vertex).edgeWeight edge := by
  rw [assignEdgeWeights_apply routines network vertex member]
  split
  · rename_i leaves
    have degree := outDegree_pos member
    rw [leaves] at degree
    positivity
  · rename_i other
    exact weighted other

structure Joined (settings : Settings) (draws : Draws) (before after : Network) : Prop where
  size : after.size = before.size + 1
  vertexIndex : after.vertexIndex = Function.update before.vertexIndex before.size before.size
  arrivalRate : after.arrivalRate = Function.update before.arrivalRate before.size
    (draws.arrival before.size * settings.maxArrivalRate)
  serviceRate : after.serviceRate = Function.update before.serviceRate before.size
    (settings.boostArrival * (draws.arrival before.size * settings.maxArrivalRate))
  edges : ∃ added, after.edges = before.edges ++ added ∧
    ∀ edge ∈ added, edge.1 = before.size ∧ edge.2 < before.size
  edgeWeight : ∀ edge ∈ before.edges, after.edgeWeight edge = before.edgeWeight edge

theorem joined_attach (routines : Routines) (settings : Settings) (draws : Draws) (edges : Nat)
    (network : Network) :
    Joined settings draws network
      ((network.attach routines settings draws edges).assignEdgeWeights routines
        network.size) := by
  have linked := linked_attach routines settings draws edges network
  refine ⟨linked.size, linked.vertexIndex, linked.arrivalRate, linked.serviceRate, linked.edges,
    ?_⟩
  intro edge member
  obtain ⟨added, appended, _⟩ := linked.edges
  have member' : edge ∈ (network.attach routines settings draws edges).edges := by
    rw [appended]
    exact List.mem_append_left _ member
  have kept := assignEdgeWeights_apply routines _ network.size member'
  rw [if_neg (network.inside edge member).1.ne, linked.edgeWeight] at kept
  exact kept

theorem weigh_all (routines : Routines) (vertices : List Nat) (network : Network) :
    let weighed := vertices.foldl
      (fun network vertex => network.assignEdgeWeights routines vertex) network
    Reweighted network weighed ∧ ∀ edge ∈ network.edges,
      edge.1 ∈ vertices ∨ 0 < network.edgeWeight edge → 0 < weighed.edgeWeight edge := by
  induction vertices generalizing network with
  | nil =>
      refine ⟨⟨rfl, rfl, rfl, rfl⟩, ?_⟩
      intro edge _ weighted
      simpa using weighted
  | cons vertex rest ih =>
      obtain ⟨kept, positive⟩ := ih (network.assignEdgeWeights routines vertex)
      refine ⟨⟨kept.toGraph, kept.vertexIndex, kept.arrivalRate, kept.serviceRate⟩, ?_⟩
      intro edge member weighted
      apply positive edge member
      by_cases later : edge.1 ∈ rest
      · exact Or.inl later
      · right
        apply assignEdgeWeights_pos routines network member
        intro other
        rcases weighted with listed | already
        · exact absurd ((List.mem_cons.mp listed).resolve_left other) later
        · exact already

/-! Rates. -/

structure Rated (settings : Settings) (draws : Draws) (network : Network) (vertex : Nat) :
    Prop where
  indexed : network.vertexIndex vertex = vertex
  drawn : ∃ index, network.arrivalRate vertex = draws.arrival index * settings.maxArrivalRate
  fresh : network.serviceRate vertex = settings.boostArrival * network.arrivalRate vertex

theorem rated_setRates (settings : Settings) (draws : Draws) (network : Network)
    (index vertex : Nat) :
    Rated settings draws (network.setRates settings (draws.arrival index) vertex) vertex := by
  refine ⟨?_, ⟨index, ?_⟩, ?_⟩ <;> simp [setRates]

theorem Rated.setRates {settings : Settings} {draws : Draws} {network : Network} {query : Nat}
    (rated : Rated settings draws network query) (index vertex : Nat) :
    Rated settings draws (network.setRates settings (draws.arrival index) vertex) query := by
  by_cases same : query = vertex
  · rw [same]
    exact rated_setRates settings draws network index vertex
  · refine ⟨?_, ?_, ?_⟩ <;> simp only [Network.setRates, Function.update_of_ne same]
    · exact rated.indexed
    · exact rated.drawn
    · exact rated.fresh

theorem assignRates_spec (settings : Settings) (draws : Draws) (offset : Nat) (network : Network) :
    (network.assignRates settings draws offset).toGraph = network.toGraph ∧
      ∀ vertex < network.size, Rated settings draws (network.assignRates settings draws offset)
        vertex := by
  have all : ∀ (vertices : List Nat) (start : Network),
      let final := vertices.foldl (fun network vertex =>
        network.setRates settings (draws.arrival (offset + vertex)) vertex) start
      final.toGraph = start.toGraph ∧ ∀ vertex,
        vertex ∈ vertices ∨ Rated settings draws start vertex →
          Rated settings draws final vertex := by
    intro vertices
    induction vertices with
    | nil =>
        intro start
        refine ⟨rfl, ?_⟩
        intro vertex rated
        simpa using rated
    | cons first rest ih =>
        intro start
        obtain ⟨same, rated⟩ := ih (start.setRates settings (draws.arrival (offset + first)) first)
        refine ⟨same, ?_⟩
        intro vertex member
        apply rated
        rcases member with listed | before
        · rcases List.mem_cons.mp listed with here | later
          · rw [here]
            exact Or.inr (rated_setRates settings draws start _ first)
          · exact Or.inl later
        · exact Or.inr (before.setRates _ first)
  obtain ⟨same, rated⟩ := all (List.range network.size) network
  exact ⟨same, fun vertex bound => rated vertex (Or.inl (List.mem_range.mpr bound))⟩

/-! Induced strengths. -/

theorem applyEnduced_foldl (diff : Nat → ℚ) {discovered : List Nat} (network : Network)
    (once : discovered.Nodup) (indexed : ∀ vertex ∈ discovered, network.vertexIndex vertex = vertex) :
    discovered.foldl (applyEnduced diff) network =
      { network with
        serviceRate := fun vertex => if vertex ∈ discovered then
          network.serviceRate vertex + diff vertex else network.serviceRate vertex } := by
  induction discovered generalizing network with
  | nil => simp
  | cons first rest ih =>
      obtain ⟨absent, once⟩ := List.nodup_cons.mp once
      have here := indexed first (by simp)
      rw [List.foldl_cons, ih (applyEnduced diff network first) once
        (fun vertex member => indexed vertex (List.mem_cons_of_mem _ member))]
      simp only [applyEnduced, here, Network.mk.injEq, true_and, and_true]
      funext vertex
      by_cases same : vertex = first
      · simp [same, absent]
      · simp [same]

end Network

end RlAqs
