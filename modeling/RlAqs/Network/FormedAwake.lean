import RlAqs.Network.FormedChecks

/-!
A growing network never loses all its service rates: nothing is passed on to the last vertex with
a nonzero draw, whatever cancels out at the others. Without a factor between draws and rates
nothing has a rate, and nothing is linked.
-/

namespace RlAqs

/-- Draws as `gsl_rng_uniform` gives them. -/
structure Draws.Uniform (draws : Draws) : Prop where
  arrival : ∀ index, 0 ≤ draws.arrival index
  nonneg : ∀ vertex edge, 0 ≤ draws.uniform vertex edge
  below : ∀ vertex edge, draws.uniform vertex edge < 1

def Settings.unit (settings : Settings) : ℚ := settings.boostArrival * settings.maxArrivalRate

theorem Settings.unit_mul (settings : Settings) (draw : ℚ) :
    settings.boostArrival * (draw * settings.maxArrivalRate) = settings.unit * draw := by
  unfold Settings.unit
  ring

def Strengths.Quiet (last : Nat) (strengths : Strengths) : Prop :=
  ∀ index, (last ≤ index → strengths.diff index = 0) ∧ (last < index → strengths.apply index = 0)

namespace Network

structure Awake (settings : Settings) (network : Network) (last : Nat) : Prop where
  inside : last < network.size
  kept : network.serviceRate last = network.base settings last
  some_rate : network.base settings last ≠ 0
  later : ∀ vertex, last < vertex → network.base settings vertex = 0

structure Asleep (settings : Settings) (network : Network) : Prop where
  base : ∀ vertex, network.base settings vertex = 0
  rate : ∀ vertex, network.serviceRate vertex = 0
  unlinked : network.edges = []

variable {routines : Routines} {settings : Settings} {draws : Draws} {network next : Network}
variable {fuel root last : Nat}

/-! The epidemic visit. -/

theorem examineEdge_quiet (indexed : network.Indexed) (descends : network.Descends id)
    {edge : Nat × Nat} (member : edge ∈ network.edges) {strengths : Strengths}
    (quiet : strengths.Quiet last) :
    ((epidemicVertexArrivalVisitor settings network).examineEdge edge strengths).Quiet last := by
  have bound := network.inside edge member
  have newer : edge.2 < edge.1 := descends edge member
  simp only [epidemicVertexArrivalVisitor, indexed edge.1 bound.1, indexed edge.2 bound.2]
  intro index
  by_cases here : index = edge.2
  · subst here
    simp only [Function.update_self]
    have sent (reached : last ≤ edge.2) :
        strengths.apply edge.1 * edgeFactor settings network edge = 0 := by
      rw [(quiet edge.1).2 (reached.trans_lt newer), zero_mul]
    exact ⟨fun reached => by rw [sent reached, (quiet edge.2).1 reached, add_zero],
      fun reached => by rw [sent reached.le, (quiet edge.2).2 reached, add_zero]⟩
  · simp only [Function.update_of_ne here]
    exact quiet index

theorem visit_quiet (indexed : network.Indexed) (descends : network.Descends id)
    (later : ∀ vertex, last < vertex → network.base settings vertex = 0) {vertex : Nat}
    (inside : vertex < network.size) {strengths : Strengths} (quiet : strengths.Quiet last) :
    ((epidemicVertexArrivalVisitor settings network).visit
      (network.outEdges routines) vertex strengths).Quiet last := by
  have examined : Strengths.Quiet last
      ((epidemicVertexArrivalVisitor settings network).examineVertex vertex strengths) := by
    simp only [epidemicVertexArrivalVisitor, indexed vertex inside]
    split
    · refine fun index => ⟨(quiet index).1, fun reached => ?_⟩
      dsimp only
      by_cases here : index = vertex
      · subst here
        rw [Function.update_self]
        exact later index reached
      · rw [Function.update_of_ne here]
        exact (quiet index).2 reached
    · exact quiet
  have along (edges : List (Nat × Nat)) (listed : ∀ edge ∈ edges, edge ∈ network.edges) :
      ∀ start : Strengths, start.Quiet last → Strengths.Quiet last
        (edges.foldl (fun state edge =>
          (epidemicVertexArrivalVisitor settings network).discoverVertex vertex
            ((epidemicVertexArrivalVisitor settings network).examineEdge edge state)) start) := by
    induction edges with
    | nil => exact fun _ quiet => quiet
    | cons edge rest ih =>
        intro start quiet
        exact ih (fun other member => listed other (List.mem_cons_of_mem _ member)) _
          (examineEdge_quiet indexed descends (listed edge List.mem_cons_self) quiet)
  have sent := along (network.outEdges routines vertex)
    (fun edge member => (mem_outEdges.mp member).1) _ examined
  refine fun index => ⟨(sent index).1, fun reached => ?_⟩
  by_cases here : index = vertex
  · simp [Visitor.visit, epidemicVertexArrivalVisitor, here, indexed vertex inside]
  · have kept := (sent index).2 reached
    simpa [Visitor.visit, epidemicVertexArrivalVisitor, indexed vertex inside,
      Function.update_of_ne here] using kept

theorem applyEnduced_kept {diff : Nat → ℚ} {vertex : Nat} (indexed : network.Indexed)
    (inside : vertex < network.size) (none : diff vertex = 0) (discovered : List Nat) :
    (discovered.foldl (applyEnduced diff) network).serviceRate vertex =
      network.serviceRate vertex := by
  induction discovered generalizing network with
  | nil => rfl
  | cons first rest ih =>
      rw [List.foldl_cons, @ih (applyEnduced diff network first) indexed inside]
      by_cases here : vertex = first
      · subst here
        simp [applyEnduced, indexed vertex inside, none]
      · simp [applyEnduced, Function.update_of_ne here]

theorem Awake.balance (awake : network.Awake settings last) (indexed : network.Indexed)
    (descends : network.Descends id) (inside : root < network.size)
    (finished : network.balanceVertexStrength routines settings fuel root = some next) :
    next.Awake settings last := by
  obtain ⟨strengths, visited, rfl⟩ := Option.map_eq_some_iff.mp finished
  have quiet : (∀ vertex ∈ ([] : List Nat), vertex < network.size) ∧ strengths.Quiet last := by
    refine Worklist.drain_invariant (fun queue (state : Strengths) =>
      (∀ vertex ∈ queue, vertex < network.size) ∧ state.Quiet last) ?_ ?_ visited
    · rintro vertex rest state ⟨queued, quiet⟩
      obtain ⟨first, others⟩ := List.forall_mem_cons.mp queued
      refine ⟨List.forall_mem_append.mpr ⟨others, fun target member => ?_⟩,
        visit_quiet indexed descends awake.later first quiet⟩
      obtain ⟨edge, listed, rfl⟩ := List.mem_map.mp member
      exact (network.inside edge (mem_outEdges.mp listed).1).2
    · exact ⟨by simpa using inside, fun _ => ⟨fun _ => rfl, fun _ => rfl⟩⟩
  have rate := applyEnduced_kept indexed awake.inside ((quiet.2 last).1 le_rfl)
    (routines.breadthFirstVisit network.edges root)
  obtain ⟨rates, same⟩ := applyEnduced_rates strengths.diff
    (routines.breadthFirstVisit network.edges root) network
  rw [same] at rate ⊢
  exact ⟨awake.inside, rate.trans awake.kept, awake.some_rate, awake.later⟩

theorem awake_first (awake : settings.unit ≠ 0) (first : draws.arrival 0 ≠ 0) :
    Awake settings ((ofSize 0).addVertex.setRates settings (draws.arrival 0) 0) 0 where
  inside := Nat.zero_lt_one
  kept := by simp [Network.base, setRates]
  some_rate := by
    simp only [Network.base, setRates, Function.update_self, settings.unit_mul]
    exact mul_ne_zero awake first
  later vertex positive := by
    simp [Network.base, setRates, Function.update_of_ne positive.ne', addVertex, ofSize]

/-! The links of a new vertex. -/

theorem drawEdges_pos {draw vertices edges : Nat} (some_vertex : 0 < vertices)
    (drew : drawEdges settings draw vertices = some edges) : 0 < edges := by
  unfold drawEdges at drew
  split at drew
  · rwa [← Option.some.inj drew]
  · split at drew
    · obtain ⟨index, _, rfl⟩ := Option.map_eq_some_iff.mp drew
      exact Nat.succ_pos index
    · obtain ⟨index, _, rfl⟩ := Option.map_eq_some_iff.mp drew
      exact Nat.succ_pos index

/-- The first draw links the new vertex; later draws take nothing away. -/
theorem Awake.links (awake : network.Awake settings last) (uniform : draws.Uniform)
    (routines : Routines) {edges : Nat} (some_edge : 0 < edges) :
    ∃ edge ∈ (network.attach routines settings draws edges).edges, edge.1 = network.size := by
  obtain ⟨rest, rfl⟩ : ∃ rest, edges = rest + 1 := ⟨edges - 1, by omega⟩
  have older : ∀ target ∈ routines.sort network.serviceRate (List.range network.size),
      target < network.size := fun _ member => mem_serviceRateOrder.mp member
  simp only [attach, List.range_succ_eq_map, List.foldl_cons]
  generalize start_eq : network.addVertex.setRates settings (draws.arrival network.size)
    network.size = start
  have size : start.size = network.size + 1 := by
    rw [← start_eq]
    rfl
  have rates : ∀ target < network.size, start.serviceRate target = network.serviceRate target := by
    intro target bound
    rw [← start_eq]
    exact Function.update_of_ne bound.ne _ _
  have total : ((routines.sort network.serviceRate (List.range network.size)).map
      start.serviceRate).sum = ((List.range network.size).map network.serviceRate).sum := by
    rw [List.map_congr_left fun target member => rates target (older target member)]
    exact ((routines.sort_perm _ _).map _).sum_eq
  have unlinked : ∀ target, (network.size, target) ∉ start.edges := by
    intro target member
    rw [← start_eq] at member
    exact absurd (network.inside _ member).1 (lt_irrefl _)
  have descending : (routines.sort network.serviceRate (List.range network.size)).Pairwise
      fun first second => start.serviceRate second ≤ start.serviceRate first := by
    refine (routines.sort_descending _ _).imp_of_mem fun left right order => ?_
    rwa [rates _ (older _ left), rates _ (older _ right)]
  have some_rate : ∃ target ∈ routines.sort network.serviceRate (List.range network.size),
      start.serviceRate target ≠ 0 := by
    refine ⟨last, mem_serviceRateOrder.mpr awake.inside, ?_⟩
    rw [rates last awake.inside, awake.kept]
    exact awake.some_rate
  obtain ⟨edge, member, source⟩ := connect_links (by omega : network.size < start.size)
    (fun target member => by have bound := older target member; omega) unlinked
    (uniform.below network.size 0) descending some_rate
  rw [total] at member
  obtain ⟨added, appended, _⟩ := (linked_foldl
    ((List.range network.size).map network.serviceRate).sum (draws.uniform network.size) older
    ((List.range rest).map Nat.succ) _).edges
  exact ⟨edge, by rw [appended]; exact List.mem_append_left _ member, source⟩

theorem Awake.attach (awake : network.Awake settings last) (routines : Routines) (draws : Draws)
    (edges : Nat) :
    ∃ last, Awake settings ((network.attach routines settings draws edges).assignEdgeWeights
      routines network.size) last := by
  have joined := joined_attach routines settings draws edges network
  have older {vertex : Nat} (other : vertex ≠ network.size) :
      base settings ((network.attach routines settings draws edges).assignEdgeWeights routines
        network.size) vertex = network.base settings vertex := by
    rw [Network.base, joined.arrivalRate, Function.update_of_ne other, Network.base]
  have fresh : base settings ((network.attach routines settings draws edges).assignEdgeWeights
      routines network.size) network.size =
        settings.boostArrival * (draws.arrival network.size * settings.maxArrivalRate) := by
    rw [Network.base, joined.arrivalRate, Function.update_self]
  have inside := awake.inside
  by_cases none : settings.boostArrival * (draws.arrival network.size * settings.maxArrivalRate) = 0
  · refine ⟨last, ⟨by rw [joined.size]; omega, ?_, ?_, fun vertex after => ?_⟩⟩
    · rw [older inside.ne, joined.serviceRate, Function.update_of_ne inside.ne]
      exact awake.kept
    · rw [older inside.ne]
      exact awake.some_rate
    · by_cases new : vertex = network.size
      · rw [new, fresh, none]
      · rw [older new]
        exact awake.later vertex after
  · refine ⟨network.size, ⟨by rw [joined.size]; omega, ?_, ?_, fun vertex after => ?_⟩⟩
    · rw [fresh, joined.serviceRate, Function.update_self]
    · rwa [fresh]
    · rw [older after.ne']
      exact awake.later vertex (by omega)

/-! Without rates. -/

theorem asleep_first (asleep : settings.unit = 0) (draw : ℚ) :
    Asleep settings ((ofSize 0).addVertex.setRates settings draw 0) := by
  have none : settings.boostArrival * (draw * settings.maxArrivalRate) = 0 := by
    rw [settings.unit_mul, asleep, zero_mul]
  refine ⟨fun vertex => ?_, fun vertex => ?_, rfl⟩ <;> by_cases here : vertex = 0
  · simp only [Network.base, setRates, here, Function.update_self, none]
  · simp [Network.base, setRates, Function.update_of_ne here, addVertex, ofSize]
  · simp only [setRates, here, Function.update_self, none]
  · simp [setRates, Function.update_of_ne here, addVertex, ofSize]

theorem Asleep.attach (asleep : network.Asleep settings) (none : settings.unit = 0)
    (routines : Routines) (draws : Draws) (edges : Nat) :
    Asleep settings ((network.attach routines settings draws edges).assignEdgeWeights routines
      network.size) := by
  have joined := joined_attach routines settings draws edges network
  have fresh : settings.boostArrival * (draws.arrival network.size * settings.maxArrivalRate) = 0 := by
    rw [settings.unit_mul, none, zero_mul]
  have total : ((List.range network.size).map network.serviceRate).sum = 0 :=
    List.sum_eq_zero (List.forall_mem_map.mpr fun vertex _ => asleep.rate vertex)
  refine ⟨fun vertex => ?_, fun vertex => ?_, ?_⟩
  · rw [Network.base, joined.arrivalRate]
    by_cases new : vertex = network.size
    · rw [new, Function.update_self, fresh]
    · rw [Function.update_of_ne new]
      exact asleep.base vertex
  · rw [joined.serviceRate]
    by_cases new : vertex = network.size
    · rw [new, Function.update_self, fresh]
    · rw [Function.update_of_ne new]
      exact asleep.rate vertex
  · have idle : ∀ links : List Nat, links.foldl (fun later link =>
        connect network.size 0 (draws.uniform network.size link)
          (routines.sort network.serviceRate (List.range network.size)) 0 later)
        (network.addVertex.setRates settings (draws.arrival network.size) network.size) =
          network.addVertex.setRates settings (draws.arrival network.size) network.size := by
      intro links
      induction links with
      | nil => rfl
      | cons link rest ih =>
          rw [List.foldl_cons, connect_idle, ih]
          intro target member
          have bound : target < network.size := mem_serviceRateOrder.mp member
          exact (Function.update_of_ne bound.ne _ _).trans (asleep.rate target)
    change (network.attach routines settings draws edges).edges = []
    rw [Network.attach, total]
    exact (congrArg (fun network => network.edges) (idle _)).trans asleep.unlinked

theorem Asleep.balance (asleep : network.Asleep settings)
    (finished : network.balanceVertexStrength routines settings fuel root = some next) :
    next.Asleep settings := by
  obtain ⟨strengths, visited, rfl⟩ := Option.map_eq_some_iff.mp finished
  have alone (vertex : Nat) : network.outEdges routines vertex = [] := by
    refine List.eq_nil_iff_forall_not_mem.mpr fun edge member => ?_
    have listed := (mem_outEdges.mp member).1
    rw [asleep.unlinked] at listed
    cases listed
  have still : ∀ index, strengths.diff index = 0 := by
    refine Worklist.drain_invariant (fun _ (state : Strengths) => ∀ index, state.diff index = 0)
      ?_ (fun _ => rfl) visited
    intro vertex rest state zero index
    simp only [Visitor.visit, alone, List.foldl_nil, epidemicVertexArrivalVisitor, zero, if_true]
  have rest (discovered : List Nat) : ∀ start : Network, (∀ vertex, start.serviceRate vertex = 0) →
      ∀ vertex, (discovered.foldl (applyEnduced strengths.diff) start).serviceRate vertex = 0 := by
    induction discovered with
    | nil => exact fun _ zero => zero
    | cons first rest ih =>
        refine fun start zero => ih _ fun vertex => ?_
        by_cases here : vertex = first <;> simp [applyEnduced, here, still, zero]
  have rate := rest (routines.breadthFirstVisit network.edges root) network asleep.rate
  obtain ⟨rates, same⟩ := applyEnduced_rates strengths.diff
    (routines.breadthFirstVisit network.edges root) network
  rw [same] at rate ⊢
  exact ⟨asleep.base, rate, asleep.unlinked⟩

end Network

end RlAqs
