import RlAqs.Network.LinksDrawn
import Mathlib.Data.Set.Function

/-!
The indices of the edges. A counter of 16 bits hands them out over the finished graph, so they
address the edges one to one until there are more than it can count.
-/

namespace RlAqs

namespace Network

theorem foldl_indices (edges : List (Nat × Nat)) (distinct : edges.Nodup)
    (index : Nat × Nat → Nat) (counter : Nat) :
    (∀ i, ∀ inside : i < edges.length,
      (edges.foldl (fun (state : (Nat × Nat → Nat) × Nat) edge =>
        (Function.update state.1 edge state.2, (state.2 + 1) % 65536))
          (index, counter % 65536)).1 edges[i] = (counter + i) % 65536) ∧
    ∀ edge ∉ edges,
      (edges.foldl (fun (state : (Nat × Nat → Nat) × Nat) edge =>
        (Function.update state.1 edge state.2, (state.2 + 1) % 65536))
          (index, counter % 65536)).1 edge = index edge := by
  induction edges generalizing index counter with
  | nil => exact ⟨fun _ inside => absurd inside (Nat.not_lt_zero _), fun _ _ => rfl⟩
  | cons first rest ih =>
      obtain ⟨fresh, distinct'⟩ := List.nodup_cons.mp distinct
      obtain ⟨later, others⟩ :=
        ih distinct' (Function.update index first (counter % 65536)) (counter + 1)
      rw [List.foldl_cons, Nat.mod_add_mod]
      refine ⟨fun i inside => ?_, fun edge outside => ?_⟩
      · cases i with
        | zero =>
            rw [List.getElem_cons_zero, others first fresh, Function.update_self, Nat.add_zero]
        | succ i =>
            rw [List.getElem_cons_succ, later i (Nat.lt_of_succ_lt_succ inside)]
            congr 1
            omega
      · obtain ⟨other, absent⟩ := not_or.mp (List.mem_cons.not.mp outside)
        rw [others edge absent, Function.update_of_ne other]

def Counted (network : Network) : Prop :=
  ∀ i, ∀ inside : i < network.edges.length, network.edgeIndex network.edges[i] = i % 65536

theorem counted_assignEdgeIndices (network : Network) : network.assignEdgeIndices.Counted := by
  intro i inside
  have counted := (foldl_indices network.edges network.simple network.edgeIndex 0).1 i inside
  rwa [Nat.zero_add] at counted

theorem Counted.weigh {network : Network} (counted : network.Counted) (routines : Routines)
    (vertices : List Nat) :
    (vertices.foldl (fun network vertex => network.assignEdgeWeights routines vertex)
      network).Counted := by
  induction vertices generalizing network with
  | nil => exact counted
  | cons vertex rest ih => exact @ih (network.assignEdgeWeights routines vertex) counted

section

variable {routines : Routines} {settings : Settings} {draws : Draws} {size : UInt32}
variable {fuel : Nat} {network : Network}

theorem createBBVGraph_counted
    (created : createBBVGraph routines settings draws fuel size = some network) :
    network.Counted := by
  obtain ⟨final, _, rfl⟩ := Option.map_eq_some_iff.mp created
  exact counted_assignEdgeIndices final

theorem createERGraph_counted
    (created : createERGraph routines settings draws fuel size = some network) :
    network.Counted := by
  obtain ⟨order, _, finished⟩ := Option.bind_eq_some_iff.mp created
  have weighed := (counted_assignEdgeIndices _ : (erdosRenyi routines settings draws size).Counted).weigh
    routines (List.range (erdosRenyi routines settings draws size).size)
  obtain ⟨rates, rfl⟩ := balanceInOrder_rates finished
  exact weighed

theorem Counted.lt_length (counted : network.Counted) {edge : Nat × Nat}
    (member : edge ∈ network.edges) : network.edgeIndex edge < network.edges.length := by
  obtain ⟨i, inside, rfl⟩ := List.mem_iff_getElem.mp member
  rw [counted i inside]
  exact (Nat.mod_le i 65536).trans_lt inside

theorem Counted.bijOn_iff (counted : network.Counted) :
    Set.BijOn network.edgeIndex {edge | edge ∈ network.edges} (Set.Iio network.edges.length) ↔
      network.edges.length ≤ 65536 := by
  constructor
  · rintro ⟨_, injective, _⟩
    by_contra many
    have same : network.edgeIndex network.edges[0] = network.edgeIndex network.edges[65536] := by
      rw [counted 0 (by omega), counted 65536 (by omega)]
    have equal := injective (List.getElem_mem _) (List.getElem_mem _) same
    rw [network.simple.getElem_inj_iff] at equal
    exact absurd equal (by decide)
  · intro few
    have exact_index : ∀ i, ∀ inside : i < network.edges.length,
        network.edgeIndex network.edges[i] = i :=
      fun i inside => (counted i inside).trans (Nat.mod_eq_of_lt (by omega))
    refine ⟨fun edge member => counted.lt_length member, ?_, ?_⟩
    · rintro first left second right same
      obtain ⟨i, inside, rfl⟩ := List.mem_iff_getElem.mp left
      obtain ⟨j, inside', rfl⟩ := List.mem_iff_getElem.mp right
      rw [exact_index i inside, exact_index j inside'] at same
      subst same
      rfl
    · intro i inside
      exact ⟨network.edges[i], List.getElem_mem inside, exact_index i inside⟩

end

/-- The indices of a generated graph address its edges one to one exactly when there are at most
65536 edges; they never leave the range of the edges. -/
theorem edgeIndex_bijOn_iff {routines : Routines} {settings : Settings} {draws : Draws}
    {size : UInt32} {fuel : Nat} {network : Network}
    (created : createBBVGraph routines settings draws fuel size = some network ∨
      createERGraph routines settings draws fuel size = some network) :
    (Set.BijOn network.edgeIndex {edge | edge ∈ network.edges} (Set.Iio network.edges.length) ↔
      network.edges.length ≤ 65536) ∧
    ∀ edge ∈ network.edges, network.edgeIndex edge < network.edges.length := by
  have counted : network.Counted := created.elim createBBVGraph_counted createERGraph_counted
  exact ⟨counted.bijOn_iff, fun edge member => counted.lt_length member⟩

theorem edgeIndex_bijOn_three :
    ∃ network, createBBVGraph Routines.reference unitSettings loopDraws 30 3 = some network ∧
      Set.BijOn network.edgeIndex {edge | edge ∈ network.edges} (Set.Iio network.edges.length) := by
  have few : (createBBVGraph Routines.reference unitSettings loopDraws 30 3).map
      (fun network => decide (network.edges.length ≤ 65536)) = some true := by decide +kernel
  obtain ⟨network, created, small⟩ := Option.map_eq_some_iff.mp few
  exact ⟨network, created, (edgeIndex_bijOn_iff (.inl created)).1.mpr (of_decide_eq_true small)⟩

/-! A graph with more edges. -/

theorem heaviest_pos {network : Network} (routines : Routines) (rated : 0 < network.totalRate)
    {count : Nat} (some_vertex : 0 < count) : 0 < network.heaviest routines count / network.totalRate := by
  refine network.heaviest_mono routines (Nat.one_le_iff_ne_zero.mpr some_vertex.ne') one_pos rated
    (div_pos ?_ rated)
  have descending := routines.sort_descending network.serviceRate (List.range network.size)
  have total := network.serviceRateOrder_sum routines
  rw [← serviceRateOrder] at descending
  rw [heaviest]
  cases order : network.serviceRateOrder routines with
  | nil =>
      rw [order] at total
      exact absurd total rated.ne
  | cons first rest =>
      rw [order] at total descending
      rw [List.take_succ_cons, List.take_zero, List.map_singleton, List.sum_singleton]
      by_contra idle
      have below : ∀ rate ∈ (first :: rest).map network.serviceRate, rate ≤ 0 := by
        intro rate member
        obtain ⟨vertex, listed, rfl⟩ := List.mem_map.mp member
        refine le_trans ?_ (not_lt.mp idle)
        rcases List.mem_cons.mp listed with rfl | later
        · exact le_rfl
        · exact (List.pairwise_cons.mp descending).1 vertex later
      have most := List.sum_le_card_nsmul _ 0 below
      rw [total, nsmul_zero] at most
      exact absurd rated (not_lt.mpr most)

theorem advanceStep_complete {routines : Routines} {settings : Settings} {draws : Draws}
    {network next : Network} {fuel : Nat} (rated : 0 < network.totalRate)
    (unlimited : settings.maxEdges = maxOutdegree)
    (zero : ∀ link, draws.uniform network.size link = 0)
    (stepped : advanceStep routines settings draws fuel network = some next) :
    next.edges.length = network.edges.length + network.size := by
  have drew : drawEdges settings (draws.numEdges network.size) network.size = some network.size := by
    rw [drawEdges, if_pos unlimited]
  have below : ∀ link, draws.uniform network.size link < 1 :=
    fun link => (zero link).trans_lt one_pos
  have complete : LinkedTo network (network.attach routines settings draws network.size)
      network.size := (attach_linkedTo_iff rated below le_rfl).mpr (by
      intro count some_vertex _
      have none : ((List.range network.size).countP fun link =>
          network.heaviest routines count / network.totalRate ≤
            draws.uniform network.size link) = 0 := by
        refine List.countP_eq_zero.mpr fun link _ => ?_
        rw [decide_eq_true_eq, zero link, not_le]
        exact heaviest_pos routines rated some_vertex
      rw [none]
      exact Nat.zero_le _)
  obtain ⟨targets, length, _, _, linked⟩ := complete
  rw [advanceStep_edges drew stepped, linked, List.length_append, List.length_map, length]

theorem TrafficEquations.pos {settings : Settings} {network : Network}
    (traffic : network.TrafficEquations settings) (descends : network.Descends id)
    (arrivals : ∀ vertex < network.size, 0 < settings.boostArrival * network.arrivalRate vertex)
    (factor : ∀ edge ∈ network.edges, 0 < edgeFactor settings network edge) {vertex : Nat}
    (inside : vertex < network.size) : 0 < network.serviceRate vertex := by
  induction left : network.size - vertex using Nat.strong_induction_on generalizing vertex with
  | _ left ih =>
      rw [traffic vertex inside]
      refine add_pos_of_pos_of_nonneg (arrivals vertex inside) (List.sum_nonneg ?_)
      refine List.forall_mem_map.mpr fun edge member => ?_
      obtain ⟨listed, target⟩ := List.mem_filter.mp member
      have newer : edge.2 < edge.1 := descends edge listed
      have place : edge.2 = vertex := of_decide_eq_true target
      have bound := (network.inside edge listed).1
      exact (mul_pos (factor edge listed) (ih _ (by omega) bound rfl)).le

theorem Grown.totalRate_pos {settings : Settings} {draws : Draws} {network : Network}
    (grown : Grown settings draws network id (Finset.range network.size))
    (boostArrival : 0 < settings.boostArrival) (boostEdge : 0 < settings.boostEdge)
    (maxArrivalRate : 0 < settings.maxArrivalRate) (positive : ∀ index, 0 < draws.arrival index)
    (some_vertex : 0 < network.size) : 0 < network.totalRate := by
  have sound := grown.sound boostArrival boostEdge fun index => (positive index).ne'
  have traffic := grown.balanced.traffic fun edge member =>
    Finset.mem_range.mpr (network.inside edge member).1
  have rates : ∀ vertex < network.size, 0 < network.serviceRate vertex := by
    refine fun vertex inside => traffic.pos grown.descends (fun vertex bound => ?_) sound.positive inside
    obtain ⟨index, rate⟩ := grown.drawn vertex bound
    rw [rate]
    exact mul_pos boostArrival (mul_pos (positive index) maxArrivalRate)
  refine List.sum_pos _ (List.forall_mem_map.mpr fun vertex member => ?_) ?_
  · exact rates vertex (List.mem_range.mp member)
  · simpa using some_vertex.ne'

theorem advance_complete {routines : Routines} {settings : Settings} {draws : Draws}
    {network final : Network} {fuel steps : Nat} (boostArrival : 0 < settings.boostArrival)
    (boostEdge : 0 < settings.boostEdge) (maxArrivalRate : 0 < settings.maxArrivalRate)
    (positive : ∀ index, 0 < draws.arrival index) (unlimited : settings.maxEdges = maxOutdegree)
    (zero : ∀ vertex link, draws.uniform vertex link = 0) (some_vertex : 0 < network.size)
    (grown : Grown settings draws network id (Finset.range network.size))
    (complete : 2 * network.edges.length = network.size * (network.size - 1))
    (advanced : network.advance routines settings draws fuel steps = some final) :
    2 * final.edges.length = final.size * (final.size - 1) := by
  induction steps generalizing network with
  | zero =>
      simp only [advance, Option.some.injEq] at advanced
      exact advanced ▸ complete
  | succ steps ih =>
      obtain ⟨middle, stepped, later⟩ := Option.bind_eq_some_iff.mp advanced
      have rated := grown.totalRate_pos boostArrival boostEdge maxArrivalRate positive some_vertex
      obtain ⟨size, grown'⟩ := grown.advanceStep boostArrival boostEdge
        (fun index => (positive index).ne') stepped
      refine ih (by omega) grown' ?_ later
      rw [size, Nat.add_sub_cancel, advanceStep_complete rated unlimited (zero _) stepped,
        Nat.mul_add, complete]
      obtain ⟨older, grown⟩ : ∃ older, network.size = older + 1 := ⟨network.size - 1, by omega⟩
      rw [grown, Nat.add_sub_cancel]
      ring

def zeroDraws : Draws where
  arrival _ := 1 / 2
  numEdges _ := 0
  uniform _ _ := 0
  erdosRenyi := []

/-- Among 363 vertices that are all linked, two edges share an index. -/
theorem edgeIndex_shared :
    ∃ fuel network,
      createBBVGraph Routines.reference unitSettings zeroDraws fuel 363 = some network ∧
        network.size = 363 ∧ network.edges.length = 65703 ∧
        ¬Set.BijOn network.edgeIndex {edge | edge ∈ network.edges}
          (Set.Iio network.edges.length) := by
  obtain ⟨network, created⟩ := createBBVGraph_returns Routines.reference unitSettings zeroDraws 363
    (by decide) le_rfl
  have counted := createBBVGraph_counted created
  refine ⟨_, network, created, ?_⟩
  obtain ⟨final, advanced, rfl⟩ := Option.map_eq_some_iff.mp created
  have size : final.size = 363 := ((shaped_first _).advance advanced).1
  have edges := advance_complete (by norm_num [unitSettings]) (by norm_num [unitSettings])
    (by norm_num [unitSettings]) (fun _ => by norm_num [zeroDraws]) rfl (fun _ _ => rfl)
    Nat.zero_lt_one grown_first rfl advanced
  rw [size] at edges
  have many : final.assignEdgeIndices.edges.length = 65703 := by
    change final.edges.length = 65703
    omega
  exact ⟨size, many, fun exact_index => by have few := counted.bijOn_iff.mp exact_index; omega⟩

end Network

end RlAqs
