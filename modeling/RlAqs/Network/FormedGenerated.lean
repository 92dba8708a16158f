import RlAqs.Network.FormedAwake
import RlAqs.Network.TrafficGenerated

/-!
The graphs that `createBBVGraph` and `createERGraph` return are well formed. In the former every
vertex leads to older ones; in the latter what the depth-first search leaves has no cycle.
-/

namespace RlAqs

namespace Network

structure WellFormed (network : Network) (size : Nat) : Prop where
  acyclic : Reach.Acyclic network.edges
  simple : network.edges.Nodup
  indices : (List.range network.size).map network.vertexIndex = List.range size
  weights : ∀ edge ∈ network.edges, network.edgeWeight edge = 1 / network.outDegree edge.1
  sums : ∀ vertex : Nat, 0 < network.outDegree vertex →
    ((network.edges.filter fun edge => edge.1 = vertex).map network.edgeWeight).sum = 1

theorem wellFormed_of {network : Network} {rank : Nat → Nat} {size : Nat}
    (indexed : network.Indexed) (descends : network.Descends rank) (shared : network.Shared)
    (full : network.size = size) : WellFormed network size where
  acyclic := Reach.acyclic_of_rank rank descends
  simple := network.simple
  indices := by
    rw [← full]
    exact (List.map_congr_left fun vertex member =>
      indexed vertex (List.mem_range.mp member)).trans (List.map_id' _)
  weights := shared
  sums _ leaves := shared.sum leaves

section Grow

variable {routines : Routines} {settings : Settings} {draws : Draws} {network next : Network}
variable {fuel : Nat}

/-! `createBBVGraph`: shape. -/

structure Shaped (network : Network) : Prop where
  some_vertex : 0 < network.size
  indexed : network.Indexed
  descends : network.Descends id
  shared : network.Shared

theorem shaped_first (draw : ℚ) : Shaped ((ofSize 0).addVertex.setRates settings draw 0) where
  some_vertex := Nat.zero_lt_one
  indexed vertex bound := by
    obtain rfl := Nat.lt_one_iff.mp bound
    rfl
  descends _ member := by cases member
  shared _ member := by cases member

theorem Shaped.attach (shaped : network.Shaped) (routines : Routines) (settings : Settings)
    (draws : Draws) (edges : Nat) :
    let weighed := (network.attach routines settings draws edges).assignEdgeWeights routines
      network.size
    weighed.size = network.size + 1 ∧ weighed.Shaped ∧ ∀ edge ∈ network.edges, edge ∈ weighed.edges := by
  intro weighed
  have joined : Joined settings draws network weighed :=
    joined_attach routines settings draws edges network
  obtain ⟨added, appended, newer⟩ := joined.edges
  refine ⟨joined.size, ⟨?_, joined.indexed shaped.indexed, joined.descends shaped.descends,
    ?_⟩, ?_⟩
  · rw [joined.size]
    exact Nat.succ_pos _
  · intro edge member
    refine (assignEdgeWeights_apply routines (network.attach routines settings draws edges)
      network.size member).trans ?_
    split
    · rename_i here
      rw [here]
      rfl
    · rename_i other
      rw [appended] at member
      have old := (List.mem_append.mp member).resolve_right fun new => other (newer edge new).1
      have degree : weighed.outDegree edge.1 = network.outDegree edge.1 := by
        have none : added.countP (fun found => (found.1 : Int) = edge.1) = 0 := by
          apply List.countP_eq_zero.mpr
          intro found new same
          have equal := of_decide_eq_true same
          rw [(newer found new).1] at equal
          exact other (by omega)
        rw [Graph.outDegree, appended, List.countP_append, none, add_zero]
        rfl
      rw [(linked_attach routines settings draws edges network).edgeWeight, degree]
      exact shaped.shared edge old
  · intro edge member
    rw [appended]
    exact List.mem_append_left _ member

theorem Shaped.advanceStep (shaped : network.Shaped)
    (advanced : network.advanceStep routines settings draws fuel = some next) :
    next.size = network.size + 1 ∧ next.Shaped ∧ ∀ edge ∈ network.edges, edge ∈ next.edges := by
  obtain ⟨edges, _, finished⟩ := Option.bind_eq_some_iff.mp advanced
  obtain ⟨size, weighed, kept⟩ := shaped.attach routines settings draws edges
  obtain ⟨rates, rfl⟩ := balanceVertexStrength_rates finished
  exact ⟨size, ⟨weighed.some_vertex, weighed.indexed, weighed.descends, weighed.shared⟩, kept⟩

theorem Shaped.advance {steps : Nat} (shaped : network.Shaped)
    (advanced : network.advance routines settings draws fuel steps = some next) :
    next.size = network.size + steps ∧ next.Shaped := by
  induction steps generalizing network with
  | zero =>
      simp only [Network.advance, Option.some.injEq] at advanced
      exact ⟨by rw [advanced, add_zero], advanced ▸ shaped⟩
  | succ steps ih =>
      obtain ⟨middle, stepped, later⟩ := Option.bind_eq_some_iff.mp advanced
      obtain ⟨size, shaped', _⟩ := shaped.advanceStep stepped
      obtain ⟨size', final⟩ := ih shaped' later
      exact ⟨by omega, final⟩

theorem Shaped.advance_runs (routines : Routines) (settings : Settings) (draws : Draws)
    (drawable : settings.maxEdges ≠ 0) {steps bound : Nat} (enough : visitFuel bound ≤ fuel)
    (shaped : network.Shaped) (fits : network.size + steps ≤ bound) :
    ∃ final, network.advance routines settings draws fuel steps = some final := by
  induction steps generalizing network with
  | zero => exact ⟨network, rfl⟩
  | succ steps ih =>
      obtain ⟨edges, drew⟩ :=
        drawEdges_total (draws.numEdges network.size) shaped.some_vertex drawable
      obtain ⟨size, weighed, _⟩ := shaped.attach routines settings draws edges
      have fueled := visitFuel_enough ((network.attach routines settings draws
        edges).assignEdgeWeights routines network.size) id (size.le.trans (by omega))
        (by simp only [id]; omega : id network.size ≤ bound)
      obtain ⟨rates, balanced⟩ := balanceVertexStrength_runs routines settings weighed.descends
        (fueled.trans enough)
      have stepped : ∃ next, network.advanceStep routines settings draws fuel = some next :=
        ⟨_, by rw [Network.advanceStep, drew]; exact balanced⟩
      obtain ⟨next, stepped⟩ := stepped
      obtain ⟨grew, shaped', _⟩ := shaped.advanceStep stepped
      obtain ⟨final, advanced⟩ := ih shaped' (by omega)
      exact ⟨final, by rw [Network.advance, stepped]; exact advanced⟩

/-! `createBBVGraph`: every vertex but the first is linked. -/

structure Attached (settings : Settings) (network : Network) : Prop where
  shaped : network.Shaped
  awake : ∃ last, network.Awake settings last
  linked : ∀ vertex, 0 < vertex → vertex < network.size → ∃ edge ∈ network.edges, edge.1 = vertex

theorem attached_first (awake : settings.unit ≠ 0) (first : draws.arrival 0 ≠ 0) :
    Attached settings ((ofSize 0).addVertex.setRates settings (draws.arrival 0) 0) := by
  refine ⟨shaped_first _, ⟨0, awake_first awake first⟩, ?_⟩
  intro vertex later bound
  have single : vertex < 1 := bound
  omega

theorem Attached.advanceStep (attached : network.Attached settings) (uniform : draws.Uniform)
    (advanced : network.advanceStep routines settings draws fuel = some next) :
    next.Attached settings := by
  obtain ⟨size, shaped, kept⟩ := attached.shaped.advanceStep advanced
  obtain ⟨edges, drew, finished⟩ := Option.bind_eq_some_iff.mp advanced
  obtain ⟨grown, weighed, _⟩ := attached.shaped.attach routines settings draws edges
  obtain ⟨last, awake⟩ := attached.awake
  obtain ⟨last', awake'⟩ := awake.attach routines draws edges
  refine ⟨shaped, ⟨last', awake'.balance weighed.indexed weighed.descends (by omega) finished⟩, ?_⟩
  intro vertex later bound
  by_cases newest : vertex = network.size
  · obtain ⟨edge, member, source⟩ := awake.links uniform routines
      (drawEdges_pos attached.shaped.some_vertex drew)
    obtain ⟨rates, rfl⟩ := balanceVertexStrength_rates finished
    exact ⟨edge, member, source.trans newest.symm⟩
  · obtain ⟨edge, member, source⟩ := attached.linked vertex later (by omega)
    exact ⟨edge, kept edge member, source⟩

theorem Attached.advance (uniform : draws.Uniform) {steps : Nat}
    (attached : network.Attached settings)
    (advanced : network.advance routines settings draws fuel steps = some next) :
    next.Attached settings := by
  induction steps generalizing network with
  | zero =>
      simp only [Network.advance, Option.some.injEq] at advanced
      exact advanced ▸ attached
  | succ steps ih =>
      obtain ⟨middle, stepped, later⟩ := Option.bind_eq_some_iff.mp advanced
      exact ih (attached.advanceStep uniform stepped) later

theorem Asleep.advance (none : settings.unit = 0) {steps : Nat} (asleep : network.Asleep settings)
    (advanced : network.advance routines settings draws fuel steps = some next) :
    next.Asleep settings := by
  induction steps generalizing network with
  | zero =>
      simp only [Network.advance, Option.some.injEq] at advanced
      exact advanced ▸ asleep
  | succ steps ih =>
      obtain ⟨middle, stepped, later⟩ := Option.bind_eq_some_iff.mp advanced
      obtain ⟨edges, _, finished⟩ := Option.bind_eq_some_iff.mp stepped
      exact ih ((asleep.attach none routines draws edges).balance finished) later

/-! `createERGraph`. -/

def drawn (draws : Draws) (size : UInt32) : Network :=
  draws.erdosRenyi.foldl (fun network edge => network.addEdge edge.1 edge.2) (ofSize size.toNat)

theorem drawn_size (draws : Draws) (size : UInt32) : (drawn draws size).size = size.toNat := by
  have kept : ∀ (edges : List (Nat × Nat)) (start : Network),
      (edges.foldl (fun network edge => network.addEdge edge.1 edge.2) start).size = start.size := by
    intro edges
    induction edges with
    | nil => exact fun _ => rfl
    | cons edge rest ih =>
        intro start
        rw [List.foldl_cons, ih]
        unfold addEdge
        split <;> rfl
  exact kept _ _

theorem erdosRenyi_graph (routines : Routines) (settings : Settings) (draws : Draws)
    (size : UInt32) :
    (erdosRenyi routines settings draws size).size = size.toNat ∧
      (erdosRenyi routines settings draws size).edges = (drawn draws size).edges.filter fun edge =>
        edge ∉ routines.backEdges size.toNat (drawn draws size).edges := by
  have first := (assignRates_spec settings draws 0 (drawn draws size)).1
  have second := (assignRates_spec settings draws size.toNat
    (((drawn draws size).assignRates settings draws 0).assignEdgeIndices.removeCycles routines)).1
  have size' : ((drawn draws size).assignRates settings draws 0).size = size.toNat := by
    rw [first, drawn_size]
  have edges' : ((drawn draws size).assignRates settings draws 0).edges =
      (drawn draws size).edges := by
    rw [first]
  constructor
  · exact (congrArg Graph.size second).trans size'
  · refine (congrArg Graph.edges second).trans ?_
    rw [← size', ← edges']
    rfl

theorem erdosRenyi_descends (routines : Routines) (settings : Settings) (draws : Draws)
    (size : UInt32)
    (search : DepthFirst.Search (drawn draws size).edges
      (routines.backEdges size.toNat (drawn draws size).edges)) :
    (erdosRenyi routines settings draws size).Descends search.finish := by
  intro edge member
  rw [(erdosRenyi_graph routines settings draws size).2] at member
  obtain ⟨listed, kept⟩ := List.mem_filter.mp member
  exact search.finish_lt listed (of_decide_eq_true kept)

end Grow

section Returned

variable (routines : Routines) (settings : Settings) (draws : Draws) (size : UInt32)

theorem createBBVGraph_shaped (some_vertex : 1 ≤ size.toNat) {fuel : Nat} {network : Network}
    (created : createBBVGraph routines settings draws fuel size = some network) :
    network.size = size.toNat ∧ network.Shaped := by
  obtain ⟨final, advanced, rfl⟩ := Option.map_eq_some_iff.mp created
  obtain ⟨full, shaped⟩ := (shaped_first (draws.arrival 0)).advance advanced
  have steps : (size - 1).toNat = size.toNat - 1 :=
    UInt32.toNat_sub_of_le _ _ (UInt32.le_iff_toNat_le.mpr some_vertex)
  have first : ((ofSize 0).addVertex.setRates settings (draws.arrival 0) 0).size = 1 := rfl
  rw [first, steps] at full
  have size' : final.size = size.toNat := by omega
  exact ⟨size', ⟨shaped.some_vertex, shaped.indexed, shaped.descends, shaped.shared⟩⟩

theorem createBBVGraph_formed (some_vertex : 1 ≤ size.toNat) {fuel : Nat} {network : Network}
    (created : createBBVGraph routines settings draws fuel size = some network) :
    network.WellFormed size.toNat := by
  obtain ⟨full, shaped⟩ := createBBVGraph_shaped routines settings draws size some_vertex created
  exact wellFormed_of shaped.indexed shaped.descends shaped.shared full

theorem createBBVGraph_linked_iff (uniform : draws.Uniform) (first : draws.arrival 0 ≠ 0)
    (some_vertex : 1 ≤ size.toNat) {fuel : Nat} {network : Network}
    (created : createBBVGraph routines settings draws fuel size = some network) :
    (∀ vertex : Nat, 0 < vertex → vertex < network.size → 0 < network.outDegree vertex) ↔
      (size.toNat = 1 ∨ settings.boostArrival * settings.maxArrivalRate ≠ 0) := by
  have full := (createBBVGraph_shaped routines settings draws size some_vertex created).1
  obtain ⟨final, advanced, rfl⟩ := Option.map_eq_some_iff.mp created
  constructor
  · intro linked
    by_contra both
    obtain ⟨many, none⟩ := not_or.mp both
    have asleep := (asleep_first (not_not.mp none) (draws.arrival 0)).advance (not_not.mp none) advanced
    have leaves := linked 1 Nat.one_pos (by omega)
    have unlinked : final.assignEdgeIndices.edges = [] := asleep.unlinked
    rw [Graph.outDegree, unlinked] at leaves
    cases leaves
  · rintro (single | awake) vertex later bound
    · omega
    · obtain ⟨edge, member, rfl⟩ :=
        ((attached_first awake first).advance uniform advanced).linked vertex later bound
      have degree : 0 < final.outDegree edge.1 := outDegree_pos member
      exact degree

theorem createERGraph_formed
    (search : DepthFirst.Search (drawn draws size).edges
      (routines.backEdges size.toNat (drawn draws size).edges))
    {fuel : Nat} {network : Network}
    (created : createERGraph routines settings draws fuel size = some network) :
    network.WellFormed size.toNat := by
  obtain ⟨order, sorted, finished⟩ := Option.bind_eq_some_iff.mp created
  obtain ⟨rates, rfl⟩ := balanceInOrder_rates finished
  have rated := erdosRenyi_rated routines settings draws size
  have full := (erdosRenyi_graph routines settings draws size).1
  have descends := erdosRenyi_descends routines settings draws size search
  generalize erdosRenyi routines settings draws size = network at rated full descends ⊢
  obtain ⟨kept, _⟩ := weigh_all routines (List.range network.size) network
  have weighed := fun edge member => weigh_all_shared routines (List.range network.size) network
    edge member (.inl (List.mem_range.mpr (network.inside edge member).1))
  generalize (List.range network.size).foldl
    (fun network vertex => network.assignEdgeWeights routines vertex) network = final at kept weighed ⊢
  have edges : final.edges = network.edges := congrArg Graph.edges kept.toGraph
  have size' : final.size = network.size := congrArg Graph.size kept.toGraph
  refine @wellFormed_of _ search.finish _ ?_ ?_ ?_ ?_
  · intro vertex bound
    have bound' : vertex < network.size := size' ▸ bound
    exact (congrFun kept.vertexIndex vertex).trans (rated vertex bound').indexed
  · intro edge member
    exact descends edge (edges ▸ member)
  · intro edge member
    have member' : edge ∈ network.edges := edges ▸ member
    have degree : final.outDegree edge.1 = network.outDegree edge.1 := by
      rw [Graph.outDegree, edges]
      rfl
    have weight := weighed edge member'
    rw [← degree] at weight
    exact weight
  · exact size'.trans full

theorem createBBVGraph_returns (drawable : settings.maxEdges ≠ 0) {fuel : Nat}
    (enough : visitFuel ((size - 1).toNat + 1) ≤ fuel) :
    ∃ network, createBBVGraph routines settings draws fuel size = some network := by
  obtain ⟨final, advanced⟩ := (shaped_first (draws.arrival 0)).advance_runs routines settings draws
    drawable enough (Nat.le_of_eq (Nat.add_comm 1 _))
  exact ⟨_, by rw [createBBVGraph, advanced]; rfl⟩

theorem createERGraph_returns {order : List Nat}
    (sorted : routines.topologicalSort (erdosRenyi routines settings draws size).size
      (erdosRenyi routines settings draws size).edges = some order) {fuel : Nat}
    (enough : ((erdosRenyi routines settings draws size).edges.length + 1) ^ order.length ≤ fuel) :
    ∃ network, createERGraph routines settings draws fuel size = some network := by
  obtain ⟨kept, _⟩ := weigh_all routines (List.range (erdosRenyi routines settings draws size).size)
    (erdosRenyi routines settings draws size)
  have edges := congrArg Graph.edges kept.toGraph
  have descends : Descends ((List.range (erdosRenyi routines settings draws size).size).foldl
      (fun network vertex => network.assignEdgeWeights routines vertex)
      (erdosRenyi routines settings draws size)) fun vertex => order.length - order.idxOf vertex := by
    intro edge member
    rw [edges] at member
    exact topological_descends sorted edge member
  rw [← edges] at enough
  obtain ⟨final, finished⟩ := balanceInOrder_runs routines settings descends
    (fun _ => Nat.sub_le _ _) enough order
  exact ⟨final, by rw [createERGraph, sorted]; exact finished⟩

/-- What either generator returns is well formed. In a BBV graph every vertex but the first has an
out-edge exactly when there is no other vertex or the draws are not all turned into rates of zero.
Both generators return. -/
theorem generated_formed (some_vertex : 1 ≤ size.toNat) :
    (∀ fuel network, createBBVGraph routines settings draws fuel size = some network →
      network.WellFormed size.toNat) ∧
    (draws.Uniform → draws.arrival 0 ≠ 0 →
      ∀ fuel network, createBBVGraph routines settings draws fuel size = some network →
        ((network.WellFormed size.toNat ∧
            ∀ vertex : Nat, 0 < vertex → vertex < network.size → 0 < network.outDegree vertex) ↔
          (size.toNat = 1 ∨ settings.boostArrival * settings.maxArrivalRate ≠ 0))) ∧
    (settings.maxEdges ≠ 0 → ∃ enough, ∀ fuel ≥ enough, ∃ network,
      createBBVGraph routines settings draws fuel size = some network) ∧
    (∀ _ : DepthFirst.Search (drawn draws size).edges
        (routines.backEdges size.toNat (drawn draws size).edges),
      ∀ fuel network, createERGraph routines settings draws fuel size = some network →
        network.WellFormed size.toNat) ∧
    ∀ order, routines.topologicalSort (erdosRenyi routines settings draws size).size
        (erdosRenyi routines settings draws size).edges = some order →
      ∃ enough, ∀ fuel ≥ enough, ∃ network,
        createERGraph routines settings draws fuel size = some network := by
  refine ⟨?_, ?_, ?_, ?_, ?_⟩
  · intro fuel network created
    exact createBBVGraph_formed routines settings draws size some_vertex created
  · intro uniform first fuel network created
    rw [and_iff_right (createBBVGraph_formed routines settings draws size some_vertex created)]
    exact createBBVGraph_linked_iff routines settings draws size uniform first some_vertex created
  · intro drawable
    exact ⟨_, fun fuel enough => createBBVGraph_returns routines settings draws size drawable enough⟩
  · intro search fuel network created
    exact createERGraph_formed routines settings draws size search created
  · intro order sorted
    exact ⟨_, fun fuel enough => createERGraph_returns routines settings draws size sorted enough⟩

end Returned

def loopDraws : Draws where
  arrival _ := 1 / 2
  numEdges _ := 1
  uniform _ edge := if edge = 0 then 1 / 4 else 3 / 4
  erdosRenyi := [(0, 1), (1, 2), (2, 0), (0, 2)]

def loopSearch : DepthFirst.Search (drawn loopDraws 3).edges
    (Routines.reference.backEdges 3 (drawn loopDraws 3).edges) where
  discover vertex := if vertex = 0 then 1 else if vertex = 1 then 3 else if vertex = 2 then 5
    else 2 * vertex + 20
  finish vertex := if vertex = 0 then 10 else if vertex = 1 then 8 else if vertex = 2 then 7
    else 2 * vertex + 21
  examine edge := if edge = (0, 1) then 2 else if edge = (1, 2) then 4 else if edge = (2, 0) then 6
    else 9
  during := by decide
  visited := by decide
  nested first second := by
    split_ifs <;> omega
  back_iff := by decide

theorem loopDraws_uniform : loopDraws.Uniform := by
  refine ⟨fun _ => by norm_num [loopDraws], ?_, ?_⟩
  · intro vertex edge
    simp only [loopDraws]
    split <;> norm_num
  · intro vertex edge
    simp only [loopDraws]
    split <;> norm_num

theorem generated_formed_three :
    (∃ network, createBBVGraph Routines.reference unitSettings loopDraws 30 3 = some network ∧
      network.WellFormed 3 ∧ 0 < network.outDegree 1 ∧ 0 < network.outDegree 2) ∧
    ∃ network, createERGraph Routines.reference unitSettings loopDraws 30 3 = some network ∧
      network.edges = [(0, 1), (1, 2), (0, 2)] ∧ network.WellFormed 3 := by
  obtain ⟨formed, linked, _, random, _⟩ :=
    generated_formed Routines.reference unitSettings loopDraws 3 (by decide)
  have first : (createBBVGraph Routines.reference unitSettings loopDraws 30 3).map
      (fun network => network.size) = some 3 := by decide +kernel
  have second : (createERGraph Routines.reference unitSettings loopDraws 30 3).map
      (fun network => network.edges) = some [(0, 1), (1, 2), (0, 2)] := by decide +kernel
  constructor
  · obtain ⟨network, created, size⟩ := Option.map_eq_some_iff.mp first
    have each := ((linked loopDraws_uniform (by norm_num [loopDraws]) 30 network created).mpr
      (.inr (by norm_num [unitSettings]))).2
    exact ⟨network, created, formed 30 network created, each 1 (by omega) (by omega),
      each 2 (by omega) (by omega)⟩
  · obtain ⟨network, created, edges⟩ := Option.map_eq_some_iff.mp second
    exact ⟨network, created, edges, random loopSearch 30 network created⟩

/-- Without a boost of the arrivals all rates are zero, and nothing is linked. -/
theorem generated_unlinked :
    (createBBVGraph Routines.reference { unitSettings with boostArrival := 0 } loopDraws 30 2).map
        (fun network => (network.size, network.outDegree 1)) = some (2, 0) ∧
      ¬∀ (routines : Routines) (settings : Settings) (draws : Draws) (size : UInt32)
        (fuel : Nat) (network : Network), 1 ≤ size.toNat → settings.maxEdges ≠ 0 →
          draws.Uniform → draws.arrival 0 ≠ 0 →
            createBBVGraph routines settings draws fuel size = some network →
              ∀ vertex : Nat, 0 < vertex → vertex < network.size → 0 < network.outDegree vertex := by
  have created : (createBBVGraph Routines.reference { unitSettings with boostArrival := 0 } loopDraws
      30 2).map (fun network => (network.size, network.outDegree 1)) = some (2, 0) := by
    decide +kernel
  refine ⟨created, fun always => ?_⟩
  obtain ⟨network, returned, shape⟩ := Option.map_eq_some_iff.mp created
  obtain ⟨size, degree⟩ := Prod.mk.inj shape
  have linked := always Routines.reference { unitSettings with boostArrival := 0 } loopDraws 2 30
    network (by decide) (by decide) loopDraws_uniform (by norm_num [loopDraws]) returned 1 Nat.one_pos
    (by omega)
  have none : network.outDegree (1 : Nat) = 0 := degree
  omega

end Network

end RlAqs
