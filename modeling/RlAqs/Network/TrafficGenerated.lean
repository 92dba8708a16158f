import RlAqs.Network.RoutinesReference
import RlAqs.Network.TrafficBalanced

/-!
The traffic equations hold in every graph that `createBBVGraph` and `createERGraph` return:
the former balances a vertex as soon as it has its links, the latter all vertices in
topological order.
-/

namespace RlAqs

open Inflow

namespace Network

structure Grown (settings : Settings) (draws : Draws) (network : Network) (rank : Nat → Nat)
    (done : Finset Nat) : Prop where
  indexed : network.Indexed
  descends : network.Descends rank
  weighted : ∀ edge ∈ network.edges, 0 < network.edgeWeight edge
  drawn : ∀ vertex < network.size, ∃ index,
    network.arrivalRate vertex = draws.arrival index * settings.maxArrivalRate
  balanced : network.Balanced settings done

section Generated

variable {routines : Routines} {settings : Settings} {draws : Draws} {network next : Network}
variable {rank : Nat → Nat} {done : Finset Nat} {fuel : Nat}

theorem Grown.sound (grown : Grown settings draws network rank done)
    (boostArrival : 0 < settings.boostArrival) (boostEdge : 0 < settings.boostEdge)
    (nonzero : ∀ index, draws.arrival index ≠ 0) : network.Sound settings rank := by
  refine ⟨grown.indexed, grown.descends, ?_, ?_⟩
  · intro edge member
    unfold edgeFactor
    split
    · assumption
    · exact mul_pos (grown.weighted edge member) boostEdge
  · by_cases silent : settings.maxArrivalRate = 0
    · right
      intro vertex bound
      obtain ⟨index, rate⟩ := grown.drawn vertex bound
      rw [base, rate, silent, mul_zero, mul_zero]
    · left
      intro vertex bound
      obtain ⟨index, rate⟩ := grown.drawn vertex bound
      rw [base, rate]
      exact mul_ne_zero boostArrival.ne' (mul_ne_zero (nonzero index) silent)

theorem Grown.balance (grown : Grown settings draws network rank done)
    (sound : network.Sound settings rank) {root : Nat} (inside : root < network.size)
    (fresh : root ∉ done)
    (finished : network.balanceVertexStrength routines settings fuel root = some next) :
    next.toGraph = network.toGraph ∧ Grown settings draws next rank (insert root done) := by
  obtain ⟨diff, rfl, response⟩ := balanceVertexStrength_spec sound inside finished
  exact ⟨rfl, grown.indexed, grown.descends, grown.weighted, grown.drawn,
    grown.balanced.balance fresh response⟩

/-! `createBBVGraph`. -/

theorem Joined.indexed (joined : Joined settings draws network next)
    (indexed : network.Indexed) : next.Indexed := by
  intro vertex bound
  rw [joined.size] at bound
  rw [joined.vertexIndex]
  by_cases last : vertex = network.size
  · rw [last, Function.update_self]
  · rw [Function.update_of_ne last]
    exact indexed vertex (by omega)

theorem Joined.descends (joined : Joined settings draws network next)
    (descends : network.Descends id) : next.Descends id := by
  obtain ⟨added, appended, newer⟩ := joined.edges
  intro edge member
  rw [appended] at member
  rcases List.mem_append.mp member with old | new
  · exact descends edge old
  · obtain ⟨source, target⟩ := newer edge new
    rw [source]
    exact target

/-- A vertex that was just linked has nothing to pass on before it is balanced. -/
theorem Grown.attach (routines : Routines) (edges : Nat)
    (grown : Grown settings draws network id (Finset.range network.size)) :
    let weighed := (network.attach routines settings draws edges).assignEdgeWeights routines
      network.size
    weighed.size = network.size + 1 ∧
      Grown settings draws weighed id (Finset.range network.size) := by
  intro weighed
  have joined : Joined settings draws network weighed :=
    joined_attach routines settings draws edges network
  obtain ⟨added, appended, newer⟩ := joined.edges
  have arrival := joined.arrivalRate
  have service := joined.serviceRate
  have fresh : weighed.serviceRate network.size = weighed.base settings network.size := by
    rw [base, service, arrival, Function.update_self, Function.update_self]
  have older : ∀ vertex < network.size, weighed.serviceRate vertex = network.serviceRate vertex ∧
      weighed.base settings vertex = network.base settings vertex := by
    intro vertex bound
    rw [base, base, service, arrival, Function.update_of_ne bound.ne,
      Function.update_of_ne bound.ne]
    exact ⟨rfl, rfl⟩
  refine ⟨joined.size, joined.indexed grown.indexed, joined.descends grown.descends,
    ?_, ?_, ?_⟩
  · intro edge member
    apply assignEdgeWeights_pos routines (network.attach routines settings draws edges) member
    intro other
    have old : edge ∈ network.edges :=
      (List.mem_append.mp (appended ▸ member)).resolve_right fun new => other (newer edge new).1
    rw [(linked_attach routines settings draws edges network).edgeWeight]
    exact grown.weighted edge old
  · intro vertex bound
    rw [joined.size] at bound
    rw [arrival]
    by_cases last : vertex = network.size
    · exact ⟨network.size, by rw [last, Function.update_self]⟩
    · rw [Function.update_of_ne last]
      exact grown.drawn vertex (by omega)
  · intro target bound
    rw [joined.size] at bound
    rw [appended, inflow_append]
    have none : inflow added (edgeFactor settings weighed) (fun source =>
        (if source ∈ Finset.range network.size then weighed.base settings source else 0) +
          (weighed.serviceRate source - weighed.base settings source)) target = 0 := by
      apply inflow_zero
      intro edge member _
      rw [(newer edge member).1, fresh]
      simp
    rw [none, add_zero]
    by_cases last : target = network.size
    · have unlinked : inflow network.edges (edgeFactor settings weighed) (fun source =>
          (if source ∈ Finset.range network.size then weighed.base settings source else 0) +
            (weighed.serviceRate source - weighed.base settings source)) target = 0 := by
        apply inflow_zero
        intro edge member arrives
        have inside := (network.inside edge member).2
        omega
      rw [unlinked, last, fresh, add_zero]
    · have earlier : target < network.size := by omega
      rw [(older target earlier).1, (older target earlier).2, grown.balanced target earlier]
      congr 1
      apply inflow_congr
      intro edge member _
      obtain ⟨rate, outside⟩ := older edge.1 (network.inside edge member).1
      simp only [rate, outside, edgeFactor, joined.edgeWeight edge member]

theorem Grown.advanceStep (boostArrival : 0 < settings.boostArrival)
    (boostEdge : 0 < settings.boostEdge) (nonzero : ∀ index, draws.arrival index ≠ 0)
    (grown : Grown settings draws network id (Finset.range network.size))
    (advanced : network.advanceStep routines settings draws fuel = some next) :
    next.size = network.size + 1 ∧ Grown settings draws next id (Finset.range next.size) := by
  obtain ⟨edges, _, finished⟩ := Option.bind_eq_some_iff.mp advanced
  obtain ⟨size, weighed⟩ := grown.attach routines edges
  obtain ⟨same, balanced⟩ := weighed.balance (weighed.sound boostArrival boostEdge nonzero)
    (by omega) (by simp) finished
  have size' : next.size = network.size + 1 := by
    rw [same]
    exact size
  refine ⟨size', ?_⟩
  rw [size', Finset.range_add_one]
  exact balanced

theorem Grown.advance (boostArrival : 0 < settings.boostArrival)
    (boostEdge : 0 < settings.boostEdge) (nonzero : ∀ index, draws.arrival index ≠ 0)
    {steps : Nat} (grown : Grown settings draws network id (Finset.range network.size))
    (advanced : network.advance routines settings draws fuel steps = some next) :
    Grown settings draws next id (Finset.range next.size) := by
  induction steps generalizing network with
  | zero =>
      simp only [Network.advance, Option.some.injEq] at advanced
      exact advanced ▸ grown
  | succ steps ih =>
      obtain ⟨middle, stepped, later⟩ := Option.bind_eq_some_iff.mp advanced
      exact ih (grown.advanceStep boostArrival boostEdge nonzero stepped).2 later

theorem drawEdges_total (draw : Nat) {vertices : Nat} (some_vertex : 0 < vertices)
    (drawable : settings.maxEdges ≠ 0) : ∃ edges, drawEdges settings draw vertices = some edges := by
  have range : settings.maxEdges.toNat ≠ 0 := by
    intro zero
    exact drawable (UInt32.toNat.inj zero)
  unfold drawEdges
  split
  · exact ⟨_, rfl⟩
  · split
    · exact ⟨draw % vertices + 1, by simp [gslRngUniformInt, some_vertex.ne']⟩
    · exact ⟨draw % settings.maxEdges.toNat + 1, by simp [gslRngUniformInt, range]⟩

def visitFuel (bound : Nat) : Nat := (bound * bound + 1) ^ bound

theorem visitFuel_enough (network : Network) (rank : Nat → Nat) {bound root : Nat}
    (size : network.size ≤ bound) (lower : rank root ≤ bound) :
    (network.edges.length + 1) ^ rank root ≤ visitFuel bound := by
  have edges := network.edges_length_le.trans (Nat.mul_le_mul size size)
  calc (network.edges.length + 1) ^ rank root
      ≤ (bound * bound + 1) ^ rank root := Nat.pow_le_pow_left (by omega) _
    _ ≤ (bound * bound + 1) ^ bound := Nat.pow_le_pow_right (by omega) lower

theorem Grown.advance_total (boostArrival : 0 < settings.boostArrival)
    (boostEdge : 0 < settings.boostEdge) (nonzero : ∀ index, draws.arrival index ≠ 0)
    (drawable : settings.maxEdges ≠ 0) {steps bound : Nat} (enough : visitFuel bound ≤ fuel)
    (grown : Grown settings draws network id (Finset.range network.size))
    (some_vertex : 0 < network.size) (fits : network.size + steps ≤ bound) :
    ∃ next, network.advance routines settings draws fuel steps = some next := by
  induction steps generalizing network with
  | zero => exact ⟨network, rfl⟩
  | succ steps ih =>
      obtain ⟨edges, drew⟩ := drawEdges_total (draws.numEdges network.size) some_vertex drawable
      obtain ⟨size, weighed⟩ := grown.attach routines edges
      have lower : id network.size ≤ bound := by
        simp only [id]
        omega
      have fueled := visitFuel_enough ((network.attach routines settings draws
        edges).assignEdgeWeights routines network.size) id (size.le.trans (by omega)) lower
      obtain ⟨next, finished⟩ := balanceVertexStrength_total
        (weighed.sound boostArrival boostEdge nonzero) (fueled.trans enough)
      have stepped : network.advanceStep routines settings draws fuel = some next := by
        rw [Network.advanceStep, drew]
        exact finished
      obtain ⟨grew, grown'⟩ := grown.advanceStep boostArrival boostEdge nonzero stepped
      obtain ⟨final, advanced⟩ := ih grown' (by omega) (by omega)
      exact ⟨final, by rw [Network.advance, stepped]; exact advanced⟩

theorem grown_first : Grown settings draws
    ((ofSize 0).addVertex.setRates settings (draws.arrival 0) 0) id (Finset.range 1) := by
  refine ⟨?_, ?_, ?_, ?_, ?_⟩
  · intro vertex bound
    have first : vertex = 0 := Nat.lt_one_iff.mp bound
    rw [first]
    rfl
  · intro edge member
    cases member
  · intro edge member
    cases member
  · intro vertex bound
    have first : vertex = 0 := Nat.lt_one_iff.mp bound
    rw [first]
    exact ⟨0, rfl⟩
  · intro vertex bound
    have first : vertex = 0 := Nat.lt_one_iff.mp bound
    rw [first]
    symm
    exact add_zero _

/-! `createERGraph`. -/

def Waiting (network : Network) (order : List Nat) (done : Finset Nat) : Prop :=
  ∀ vertex ∈ order, vertex < network.size ∧ vertex ∉ done

theorem Waiting.insert {rest : List Nat} {vertex : Nat} (waiting : network.Waiting rest done)
    (same : next.toGraph = network.toGraph) (absent : vertex ∉ rest) :
    next.Waiting rest (insert vertex done) := by
  intro other member
  obtain ⟨inside, fresh⟩ := waiting other member
  rw [same, Finset.mem_insert]
  refine ⟨inside, ?_⟩
  rintro (here | before)
  · exact absent (here ▸ member)
  · exact fresh before

theorem Grown.balanceInOrder (boostArrival : 0 < settings.boostArrival)
    (boostEdge : 0 < settings.boostEdge) (nonzero : ∀ index, draws.arrival index ≠ 0)
    {order : List Nat} (once : order.Nodup)
    (waiting : network.Waiting order done)
    (grown : Grown settings draws network rank done)
    (finished : balanceInOrder routines settings fuel order network = some next) :
    ∃ done', next.toGraph = network.toGraph ∧ Grown settings draws next rank done' ∧
      done ⊆ done' ∧ ∀ vertex ∈ order, 0 < network.outDegree vertex → vertex ∈ done' := by
  induction order generalizing network done with
  | nil =>
      simp only [Network.balanceInOrder, Option.some.injEq] at finished
      subst finished
      exact ⟨done, rfl, grown, Finset.Subset.refl done, by simp⟩
  | cons vertex rest ih =>
      obtain ⟨absent, once⟩ := List.nodup_cons.mp once
      obtain ⟨inside, fresh⟩ := waiting vertex (by simp)
      have later : network.Waiting rest done :=
        fun other member => waiting other (List.mem_cons_of_mem _ member)
      simp only [Network.balanceInOrder] at finished
      split at finished
      · obtain ⟨middle, stepped, finished⟩ := Option.bind_eq_some_iff.mp finished
        obtain ⟨same, balanced⟩ := grown.balance (grown.sound boostArrival boostEdge nonzero)
          inside fresh stepped
        obtain ⟨done', same', final, subset, all⟩ := ih once (later.insert same absent) balanced finished
        refine ⟨done', same'.trans same, final,
          (Finset.subset_insert vertex done).trans subset, ?_⟩
        intro other member leaves
        rcases List.mem_cons.mp member with here | after
        · rw [here]
          exact subset (Finset.mem_insert_self vertex done)
        · exact all other after (by rwa [same])
      · rename_i sink
        obtain ⟨done', same', final, subset, all⟩ := ih once later grown finished
        refine ⟨done', same', final, subset, ?_⟩
        intro other member leaves
        rcases List.mem_cons.mp member with here | after
        · exact absurd (here ▸ leaves) sink
        · exact all other after leaves

theorem Grown.balanceInOrder_total (boostArrival : 0 < settings.boostArrival)
    (boostEdge : 0 < settings.boostEdge) (nonzero : ∀ index, draws.arrival index ≠ 0)
    {order : List Nat} {bound : Nat} (enough : visitFuel bound ≤ fuel)
    (fits : network.size ≤ bound) (lower : ∀ vertex, rank vertex ≤ bound)
    (once : order.Nodup) (waiting : network.Waiting order done)
    (grown : Grown settings draws network rank done) :
    ∃ next, Network.balanceInOrder routines settings fuel order network = some next := by
  induction order generalizing network done with
  | nil => exact ⟨network, rfl⟩
  | cons vertex rest ih =>
      obtain ⟨absent, once⟩ := List.nodup_cons.mp once
      obtain ⟨inside, fresh⟩ := waiting vertex (by simp)
      have later : network.Waiting rest done :=
        fun other member => waiting other (List.mem_cons_of_mem _ member)
      simp only [Network.balanceInOrder]
      split
      · have sound := grown.sound boostArrival boostEdge nonzero
        obtain ⟨middle, stepped⟩ : ∃ middle,
            network.balanceVertexStrength routines settings fuel vertex = some middle :=
          balanceVertexStrength_total sound
            ((visitFuel_enough network rank fits (lower vertex)).trans enough)
        obtain ⟨same, balanced⟩ := grown.balance sound inside fresh stepped
        rw [stepped]
        exact ih (by rwa [same]) once (later.insert same absent) balanced
      · exact ih fits once later grown

theorem rated_assigned (offset : Nat) (network : Network) :
    ∀ vertex < (network.assignRates settings draws offset).assignEdgeIndices.size,
      Rated settings draws (network.assignRates settings draws offset).assignEdgeIndices vertex := by
  intro vertex bound
  obtain ⟨same, rated⟩ := assignRates_spec settings draws offset network
  have bound' : vertex < (network.assignRates settings draws offset).size := bound
  rw [same] at bound'
  obtain ⟨indexed, drawn, fresh⟩ := rated vertex bound'
  exact ⟨indexed, drawn, fresh⟩

theorem erdosRenyi_rated (routines : Routines) (settings : Settings) (draws : Draws)
    (size : UInt32) :
    ∀ vertex < (erdosRenyi routines settings draws size).size,
      Rated settings draws (erdosRenyi routines settings draws size) vertex :=
  rated_assigned size.toNat _

theorem grown_weighed (routines : Routines)
    (rated : ∀ vertex < network.size, Rated settings draws network vertex)
    (descends : network.Descends rank) :
    let weighed := (List.range network.size).foldl
      (fun network vertex => network.assignEdgeWeights routines vertex) network
    weighed.toGraph = network.toGraph ∧ Grown settings draws weighed rank ∅ := by
  intro weighed
  obtain ⟨kept, positive⟩ := weigh_all routines (List.range network.size) network
  have edges : weighed.edges = network.edges := congrArg Graph.edges kept.toGraph
  have size : weighed.size = network.size := congrArg Graph.size kept.toGraph
  have outside : ∀ vertex, weighed.base settings vertex = network.base settings vertex := by
    intro vertex
    rw [base, base, kept.arrivalRate]
  have fresh : ∀ vertex < network.size,
      weighed.serviceRate vertex = weighed.base settings vertex := by
    intro vertex bound
    rw [outside, kept.serviceRate]
    exact (rated vertex bound).fresh
  refine ⟨kept.toGraph, ?_, ?_, ?_, ?_, ?_⟩
  · intro vertex bound
    rw [kept.vertexIndex]
    exact (rated vertex (size ▸ bound)).indexed
  · intro edge member
    exact descends edge (edges ▸ member)
  · intro edge member
    have member' : edge ∈ network.edges := edges ▸ member
    exact positive edge member' (Or.inl (List.mem_range.mpr (network.inside edge member').1))
  · intro vertex bound
    rw [kept.arrivalRate]
    exact (rated vertex (size ▸ bound)).drawn
  · intro target bound
    have none : inflow weighed.edges (edgeFactor settings weighed) (fun source =>
        (if source ∈ (∅ : Finset Nat) then weighed.base settings source else 0) +
          (weighed.serviceRate source - weighed.base settings source)) target = 0 := by
      apply inflow_zero
      intro edge member _
      rw [fresh edge.1 (size ▸ (weighed.inside edge member).1)]
      simp
    rw [none, add_zero]
    exact fresh target (size ▸ bound)

theorem topological_waiting {order : List Nat}
    (sorted : routines.topologicalSort network.size network.edges = some order)
    (same : next.toGraph = network.toGraph) : order.Nodup ∧ next.Waiting order ∅ := by
  have perm := routines.topological_perm _ _ _ sorted
  refine ⟨perm.nodup_iff.mpr List.nodup_range, ?_⟩
  intro vertex member
  rw [same]
  exact ⟨List.mem_range.mp (perm.mem_iff.mp member), Finset.notMem_empty vertex⟩

theorem topological_descends {order : List Nat}
    (sorted : routines.topologicalSort network.size network.edges = some order) :
    network.Descends fun vertex => order.length - order.idxOf vertex := by
  intro edge member
  have forward := routines.topological_forward _ _ _ sorted edge member
  have listed : edge.2 ∈ order := by
    rw [(routines.topological_perm _ _ _ sorted).mem_iff]
    exact List.mem_range.mpr (network.inside edge member).2
  have place := List.idxOf_lt_length_iff.mpr listed
  show order.length - order.idxOf edge.2 < order.length - order.idxOf edge.1
  omega

end Generated

section Main

variable (routines : Routines) (settings : Settings) (draws : Draws) (size : UInt32)
variable (boostArrival : 0 < settings.boostArrival) (boostEdge : 0 < settings.boostEdge)
variable (nonzero : ∀ index, draws.arrival index ≠ 0)
include boostArrival boostEdge nonzero

theorem createBBVGraph_traffic {fuel : Nat} {network : Network}
    (created : createBBVGraph routines settings draws fuel size = some network) :
    network.TrafficEquations settings := by
  obtain ⟨final, advanced, rfl⟩ := Option.map_eq_some_iff.mp created
  have grown := grown_first.advance boostArrival boostEdge nonzero advanced
  apply grown.balanced.traffic
  intro edge member
  exact Finset.mem_range.mpr (final.inside edge member).1

theorem createBBVGraph_total (drawable : settings.maxEdges ≠ 0 ∨ size = 1) {fuel : Nat}
    (enough : visitFuel ((size - 1).toNat + 1) ≤ fuel) :
    ∃ network, createBBVGraph routines settings draws fuel size = some network := by
  obtain ⟨final, advanced⟩ : ∃ final, Network.advance routines settings draws fuel (size - 1).toNat
      ((ofSize 0).addVertex.setRates settings (draws.arrival 0) 0) = some final := by
    rcases drawable with edges | single
    · exact grown_first.advance_total boostArrival boostEdge nonzero edges enough
        Nat.zero_lt_one (Nat.le_of_eq (Nat.add_comm 1 _))
    · rw [single]
      exact ⟨_, rfl⟩
  exact ⟨_, by rw [createBBVGraph, advanced]; rfl⟩

theorem createERGraph_traffic {fuel : Nat} {network : Network}
    (created : createERGraph routines settings draws fuel size = some network) :
    network.TrafficEquations settings := by
  obtain ⟨order, sorted, finished⟩ := Option.bind_eq_some_iff.mp created
  obtain ⟨weighed, grown⟩ := grown_weighed routines
    (erdosRenyi_rated routines settings draws size)
    (topological_descends sorted)
  obtain ⟨once, waiting⟩ := topological_waiting sorted weighed
  obtain ⟨done, same, balanced, _, all⟩ :=
    grown.balanceInOrder boostArrival boostEdge nonzero once waiting finished
  apply balanced.balanced.traffic
  intro edge member
  have listed : edge.1 ∈ order := by
    rw [(routines.topological_perm _ _ _ sorted).mem_iff, ← weighed, ← same]
    exact List.mem_range.mpr (network.inside edge member).1
  apply all edge.1 listed
  rw [← same]
  exact outDegree_pos member

theorem createERGraph_total {order : List Nat}
    (sorted : routines.topologicalSort (erdosRenyi routines settings draws size).size
      (erdosRenyi routines settings draws size).edges = some order) {fuel : Nat}
    (enough : visitFuel (erdosRenyi routines settings draws size).size ≤ fuel) :
    ∃ network, createERGraph routines settings draws fuel size = some network := by
  obtain ⟨weighed, grown⟩ := grown_weighed routines
    (erdosRenyi_rated routines settings draws size)
    (topological_descends sorted)
  obtain ⟨once, waiting⟩ := topological_waiting sorted weighed
  have length := (routines.topological_perm _ _ _ sorted).length_eq
  rw [List.length_range] at length
  obtain ⟨final, finished⟩ := grown.balanceInOrder_total boostArrival boostEdge nonzero enough
    (Nat.le_of_eq (congrArg Graph.size weighed))
    (fun vertex => (Nat.sub_le _ _).trans length.le) once waiting
  exact ⟨final, by rw [createERGraph, sorted]; exact finished⟩

/-- Both generators return, and whatever they return satisfies the traffic equations. -/
theorem generated_traffic :
    (∀ fuel network, createBBVGraph routines settings draws fuel size = some network →
      network.TrafficEquations settings) ∧
    (settings.maxEdges ≠ 0 ∨ size = 1 → ∃ enough, ∀ fuel ≥ enough, ∃ network,
      createBBVGraph routines settings draws fuel size = some network) ∧
    (∀ fuel network, createERGraph routines settings draws fuel size = some network →
      network.TrafficEquations settings) ∧
    ∀ order, routines.topologicalSort (erdosRenyi routines settings draws size).size
        (erdosRenyi routines settings draws size).edges = some order →
      ∃ enough, ∀ fuel ≥ enough, ∃ network,
        createERGraph routines settings draws fuel size = some network := by
  refine ⟨?_, ?_, ?_, ?_⟩
  · intro fuel network created
    exact createBBVGraph_traffic routines settings draws size boostArrival boostEdge nonzero created
  · intro drawable
    refine ⟨visitFuel ((size - 1).toNat + 1), ?_⟩
    intro fuel enough
    exact createBBVGraph_total routines settings draws size boostArrival boostEdge nonzero drawable
      enough
  · intro fuel network created
    exact createERGraph_traffic routines settings draws size boostArrival boostEdge nonzero created
  · intro order sorted
    refine ⟨visitFuel (erdosRenyi routines settings draws size).size, ?_⟩
    intro fuel enough
    exact createERGraph_total routines settings draws size boostArrival boostEdge nonzero sorted
      enough

end Main

def unitSettings : Settings where
  fixedEdgeWeight := -1
  maxArrivalRate := 2
  boostArrival := 1
  boostEdge := 1
  maxEdges := maxOutdegree

def halfDraws : Draws where
  arrival _ := 1 / 2
  numEdges _ := 0
  uniform _ _ := 1 / 2
  erdosRenyi := [(0, 1), (1, 0), (1, 2), (2, 0), (0, 2), (0, 1)]

theorem generated_traffic_three :
    (∃ network, createBBVGraph Routines.reference unitSettings halfDraws 30 3 = some network ∧
      network.edges = [(1, 0), (2, 0), (2, 1)] ∧ network.serviceRate 0 = 3 ∧
      network.TrafficEquations unitSettings) ∧
    ∃ network, createERGraph Routines.reference unitSettings halfDraws 30 3 = some network ∧
      network.edges = [(0, 1), (1, 2), (0, 2)] ∧ network.serviceRate 2 = 3 ∧
      network.TrafficEquations unitSettings := by
  obtain ⟨grown, _, random, _⟩ := generated_traffic Routines.reference unitSettings halfDraws 3
    (by decide) (by decide) (fun _ => by simp [halfDraws])
  have first : (createBBVGraph Routines.reference unitSettings halfDraws 30 3).map
      (fun network => (network.edges, network.serviceRate 0)) =
        some ([(1, 0), (2, 0), (2, 1)], 3) := by decide +kernel
  have second : (createERGraph Routines.reference unitSettings halfDraws 30 3).map
      (fun network => (network.edges, network.serviceRate 2)) =
        some ([(0, 1), (1, 2), (0, 2)], 3) := by decide +kernel
  constructor
  · obtain ⟨network, created, shape⟩ := Option.map_eq_some_iff.mp first
    obtain ⟨edges, rate⟩ := Prod.mk.inj shape
    exact ⟨network, created, edges, rate, grown 30 network created⟩
  · obtain ⟨network, created, shape⟩ := Option.map_eq_some_iff.mp second
    obtain ⟨edges, rate⟩ := Prod.mk.inj shape
    exact ⟨network, created, edges, rate, random 30 network created⟩

end Network

end RlAqs
