import RlAqs.Library.DepthFirst
import RlAqs.Library.Sums
import RlAqs.Network.EpidemicSpread

/-!
What the generators do to the shape of a network and to its weights, and when a new vertex gets
a link. Nothing here depends on the rates but the links.
-/

namespace RlAqs

namespace Network

/-! Balancing changes service rates only. -/

theorem applyEnduced_rates (diff : Nat → ℚ) (discovered : List Nat) (network : Network) :
    ∃ rates, discovered.foldl (applyEnduced diff) network = { network with serviceRate := rates } := by
  induction discovered generalizing network with
  | nil => exact ⟨network.serviceRate, rfl⟩
  | cons vertex rest ih =>
      obtain ⟨rates, same⟩ := ih (applyEnduced diff network vertex)
      exact ⟨rates, same⟩

theorem balanceVertexStrength_rates {routines : Routines} {settings : Settings} {fuel vertex : Nat}
    {network next : Network}
    (finished : network.balanceVertexStrength routines settings fuel vertex = some next) :
    ∃ rates, next = { network with serviceRate := rates } := by
  obtain ⟨strengths, _, rfl⟩ := Option.map_eq_some_iff.mp finished
  exact applyEnduced_rates _ _ network

theorem balanceInOrder_rates {routines : Routines} {settings : Settings} {fuel : Nat}
    {order : List Nat} {network next : Network}
    (finished : balanceInOrder routines settings fuel order network = some next) :
    ∃ rates, next = { network with serviceRate := rates } := by
  induction order generalizing network with
  | nil =>
      simp only [balanceInOrder, Option.some.injEq] at finished
      exact ⟨network.serviceRate, finished.symm⟩
  | cons vertex rest ih =>
      simp only [balanceInOrder] at finished
      split at finished
      · obtain ⟨middle, stepped, later⟩ := Option.bind_eq_some_iff.mp finished
        obtain ⟨rates, rfl⟩ := balanceVertexStrength_rates stepped
        obtain ⟨rates', rfl⟩ := ih later
        exact ⟨rates', rfl⟩
      · exact ih finished

theorem balanceVertexStrength_runs (routines : Routines) (settings : Settings) {network : Network}
    {rank : Nat → Nat} {fuel root : Nat} (descends : network.Descends rank)
    (enough : (network.edges.length + 1) ^ rank root ≤ fuel) :
    ∃ rates, network.balanceVertexStrength routines settings fuel root =
      some { network with serviceRate := rates } := by
  obtain ⟨final, visited⟩ : ∃ final, (epidemicVertexArrivalVisitor settings network).epidemicVisit
      (network.outEdges routines) fuel root Strengths.zero = some final :=
    epidemicVisit_total descends enough
  obtain ⟨rates, same⟩ := applyEnduced_rates final.diff
    (routines.breadthFirstVisit network.edges root) network
  refine ⟨rates, ?_⟩
  rw [balanceVertexStrength, visited, Option.map_some, same]

theorem balanceInOrder_runs (routines : Routines) (settings : Settings) {network : Network}
    {rank : Nat → Nat} {fuel bound : Nat} (descends : network.Descends rank)
    (lower : ∀ vertex, rank vertex ≤ bound)
    (enough : (network.edges.length + 1) ^ bound ≤ fuel) (order : List Nat) :
    ∃ next, balanceInOrder routines settings fuel order network = some next := by
  induction order generalizing network with
  | nil => exact ⟨network, rfl⟩
  | cons vertex rest ih =>
      simp only [balanceInOrder]
      split
      · have fueled := Nat.pow_le_pow_right (Nat.succ_pos network.edges.length) (lower vertex)
        obtain ⟨rates, balanced⟩ := balanceVertexStrength_runs routines settings descends
          (fueled.trans enough)
        rw [balanced]
        exact @ih { network with serviceRate := rates } descends enough
      · exact ih descends enough

/-! Weights. -/

def Shared (network : Network) : Prop :=
  ∀ edge ∈ network.edges, network.edgeWeight edge = 1 / network.outDegree edge.1

theorem Shared.sum {network : Network} (shared : network.Shared) {vertex : Nat}
    (leaves : 0 < network.outDegree vertex) :
    ((network.edges.filter fun edge => edge.1 = vertex).map network.edgeWeight).sum = 1 := by
  have each : (network.edges.filter fun edge => edge.1 = vertex).map network.edgeWeight =
      List.replicate (network.outDegree vertex) (1 / (network.outDegree vertex : ℚ)) := by
    apply List.eq_replicate_iff.mpr
    constructor
    · rw [List.length_map, Graph.outDegree, List.countP_eq_length_filter]
      simp
    · intro weight member
      obtain ⟨edge, inside, rfl⟩ := List.mem_map.mp member
      obtain ⟨listed, source⟩ := List.mem_filter.mp inside
      rw [shared edge listed, of_decide_eq_true source]
  rw [each, List.sum_replicate, nsmul_eq_mul]
  exact mul_one_div_cancel (Nat.cast_ne_zero.mpr leaves.ne')

theorem weigh_all_shared (routines : Routines) (vertices : List Nat) (network : Network)
    (edge : Nat × Nat) (member : edge ∈ network.edges)
    (weighted : edge.1 ∈ vertices ∨ network.edgeWeight edge = 1 / network.outDegree edge.1) :
    (vertices.foldl (fun network vertex => network.assignEdgeWeights routines vertex)
      network).edgeWeight edge = 1 / network.outDegree edge.1 := by
  induction vertices generalizing network with
  | nil => simpa using weighted
  | cons vertex rest ih =>
      rw [List.foldl_cons]
      refine ih (network.assignEdgeWeights routines vertex) member ?_
      by_cases later : edge.1 ∈ rest
      · exact .inl later
      · right
        rw [assignEdgeWeights_apply routines network vertex member]
        split
        · rename_i here
          rw [here]
          rfl
        · rename_i other
          rcases weighted with listed | already
          · exact absurd ((List.mem_cons.mp listed).resolve_left other) later
          · exact already

/-! The scan for one draw. -/

def Selects (rate : Nat → ℚ) (accumServiceRate draw before : ℚ) (order : List Nat) (position : Nat) :
    Prop :=
  BelowShare draw (before + ((order.take (position + 1)).map rate).sum) accumServiceRate

theorem selects_succ {rate : Nat → ℚ} {accumServiceRate draw before : ℚ} {target : Nat}
    {rest : List Nat} (position : Nat) :
    Selects rate accumServiceRate draw before (target :: rest) (position + 1) ↔
      Selects rate accumServiceRate draw (before + rate target) rest position := by
  rw [Selects, Selects, List.take_succ_cons, List.map_cons, List.sum_cons, add_assoc]

theorem connect_cases (vertex : Nat) {accumServiceRate draw : ℚ} (order : List Nat) (before : ℚ)
    (network : Network) :
    (∃ position, ∃ inside : position < order.length,
      Selects network.serviceRate accumServiceRate draw before order position ∧
      (vertex, order[position]) ∉ network.edges ∧
      (∀ other, ∀ inside : other < order.length, other < position →
        Selects network.serviceRate accumServiceRate draw before order other →
          (vertex, order[other]) ∈ network.edges) ∧
      connect vertex accumServiceRate draw order before network =
        network.addEdge vertex order[position]) ∨
    (∀ other, ∀ inside : other < order.length,
      Selects network.serviceRate accumServiceRate draw before order other →
        (vertex, order[other]) ∈ network.edges) ∧
      connect vertex accumServiceRate draw order before network = network := by
  induction order generalizing before with
  | nil => exact .inr ⟨fun _ inside => absurd inside (Nat.not_lt_zero _), rfl⟩
  | cons target rest ih =>
      have here : Selects network.serviceRate accumServiceRate draw before (target :: rest) 0 ↔
          BelowShare draw (before + network.serviceRate target) accumServiceRate := by
        simp [Selects]
      by_cases taken : BelowShare draw (before + network.serviceRate target) accumServiceRate ∧
          (vertex, target) ∉ network.edges
      · refine .inl ⟨0, Nat.succ_pos _, here.mpr taken.1, taken.2, fun other _ less => ?_, ?_⟩
        · exact absurd less (Nat.not_lt_zero _)
        · simp only [connect, taken.1, if_true, taken.2, if_false, List.getElem_cons_zero]
      · have skipped : Selects network.serviceRate accumServiceRate draw before (target :: rest) 0 →
            (vertex, target) ∈ network.edges := by
          intro selected
          by_contra unlinked
          exact taken ⟨here.mp selected, unlinked⟩
        have scanned : connect vertex accumServiceRate draw (target :: rest) before network =
            connect vertex accumServiceRate draw rest (before + network.serviceRate target)
              network := by
          simp only [connect]
          split
          · rename_i selected
            rw [if_pos (skipped (here.mpr selected))]
          · rfl
        rw [scanned]
        rcases ih (before + network.serviceRate target) with
          ⟨position, inside, selected, unlinked, passed, linked⟩ | ⟨full, kept⟩
        · refine .inl ⟨position + 1, Nat.succ_lt_succ inside, (selects_succ position).mpr selected,
            unlinked, ?_, linked⟩
          intro other bound less chosen
          cases other with
          | zero => exact skipped chosen
          | succ other =>
              exact passed other (Nat.lt_of_succ_lt_succ bound) (Nat.lt_of_succ_lt_succ less)
                ((selects_succ other).mp chosen)
        · refine .inr ⟨?_, kept⟩
          intro other bound chosen
          cases other with
          | zero => exact skipped chosen
          | succ other =>
              exact full other (Nat.lt_of_succ_lt_succ bound) ((selects_succ other).mp chosen)

theorem selects_some {rate : Nat → ℚ} {draw : ℚ} {order : List Nat} (below : draw < 1)
    (descending : order.Pairwise fun first second => rate second ≤ rate first)
    (some_rate : ∃ target ∈ order, rate target ≠ 0) :
    ∃ position, position < order.length ∧ Selects rate (order.map rate).sum draw 0 order position := by
  have some_vertex : 0 < order.length :=
    List.length_pos_iff.mpr (List.ne_nil_of_mem some_rate.choose_spec.1)
  by_cases cancelled : (order.map rate).sum = 0
  · -- The greatest rate is positive, and a positive number over zero is above any draw.
    refine ⟨0, some_vertex, ?_⟩
    rw [Selects, BelowShare, if_pos cancelled]
    obtain ⟨target, member, nonzero⟩ := some_rate
    cases order with
    | nil => cases member
    | cons first rest =>
        by_contra idle
        simp only [zero_add, List.take_succ_cons, List.take_zero, List.map_singleton,
          List.sum_singleton, not_lt] at idle
        have nonpos : ∀ share ∈ (first :: rest).map rate, share ≤ 0 := by
          refine List.forall_mem_map.mpr (List.forall_mem_cons.mpr ⟨idle, fun other later => ?_⟩)
          exact (List.rel_of_pairwise_cons descending later).trans idle
        exact nonzero (Sums.zero_of_nonpos nonpos cancelled.ge _ (List.mem_map_of_mem member))
  · refine ⟨order.length - 1, by omega, ?_⟩
    rw [Selects, BelowShare, if_neg cancelled, Nat.sub_add_cancel some_vertex, List.take_length,
      zero_add, div_self cancelled]
    exact below

theorem connect_links {vertex : Nat} {draw : ℚ} {order : List Nat} {network : Network}
    (place : vertex < network.size) (inside : ∀ target ∈ order, target < network.size)
    (unlinked : ∀ target, (vertex, target) ∉ network.edges) (below : draw < 1)
    (descending : order.Pairwise fun first second =>
      network.serviceRate second ≤ network.serviceRate first)
    (some_rate : ∃ target ∈ order, network.serviceRate target ≠ 0) :
    ∃ edge ∈ (connect vertex (order.map network.serviceRate).sum draw order 0 network).edges,
      edge.1 = vertex := by
  rcases connect_cases vertex order 0 network with
    ⟨position, bound, _, fresh, _, linked⟩ | ⟨full, _⟩
  · refine ⟨(vertex, order[position]), ?_, rfl⟩
    rw [linked, addEdge, dif_pos ⟨⟨place, inside _ (List.getElem_mem bound)⟩, fresh⟩]
    exact List.mem_append_right _ (List.mem_singleton_self _)
  · obtain ⟨position, bound, selected⟩ := selects_some below descending some_rate
    exact absurd (full position bound selected) (unlinked _)

/-- Where all rates are zero no draw selects a vertex. -/
theorem connect_idle (vertex : Nat) (draw : ℚ) {order : List Nat} {network : Network}
    (idle : ∀ target ∈ order, network.serviceRate target = 0) :
    connect vertex 0 draw order 0 network = network := by
  rcases connect_cases vertex order 0 network with ⟨position, bound, selected, _⟩ | ⟨_, kept⟩
  · have none : ((order.take (position + 1)).map network.serviceRate).sum = 0 :=
      List.sum_eq_zero (List.forall_mem_map.mpr fun target member =>
        idle target (List.mem_of_mem_take member))
    rw [Selects, BelowShare, if_pos rfl, none, add_zero] at selected
    exact absurd selected (lt_irrefl 0)
  · exact kept

end Network

end RlAqs
