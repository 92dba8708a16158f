import RlAqs.Routing.RoutingInside
import RlAqs.Simulator.JobsRetrace

/-!
The event loop with the selection and the response handler in it: a departure asks the
selection, an acknowledgement calls the response handler. Every job stays in the graph.
-/

namespace RlAqs

open Handlers EventGenerator Processor

inductive Selection where
  | randomSelection
  | onPolicySelection
  deriving DecidableEq, Repr

structure RoutingSetup (N : Type) (graph : Graph) where
  selection : Selection
  sorting : WeightSorting
  handler : ResponseHandler
  agent : Agent N
  out : OutEdges graph

structure RoutedChoice where
  choice : Choice
  draws : RoutingDraws

namespace RoutingSetup

variable {N : Type} {graph : Graph}

def select (setup : RoutingSetup N graph) (router : Router N) (source : Nat) (currentTime : ℚ)
    (draws : PolicyDraws) : Option (Router N × Int) :=
  match setup.selection with
  | .randomSelection =>
      some (router, RandomSelection.select setup.out setup.sorting router source draws.uniform)
  | .onPolicySelection =>
      OnPolicySelection.select setup.agent setup.out router source currentTime draws

/-- What a turn does to the router, and the vertex that `DepartureHandler` is given. -/
def turn (setup : RoutingSetup N graph) (config : Config) (router : Router N) (entry : Entry)
    (draws : RoutingDraws) (unused : Nat) : Option (Router N × Nat) :=
  if entry.origin = adminEvent ∨ entry.arrival > config.stopTime then some (router, unused)
  else if entry.type = departureEvent ∧ 0 < graph.outDegree entry.destination then
    (setup.select router entry.destination.toNat entry.arrival draws.policy).map
      fun (router, destination) => (router, destination.toNat)
  else if entry.type = ackEvent ∨ entry.type = ack1hopEvent then
    match responseHandler entry with
    | none => some (router, unused)
    | some reward =>
        (setup.handler.update setup.agent setup.out router entry reward draws).map
          fun router => (router, unused)
  else some (router, unused)

def step (setup : RoutingSetup N graph) (config : Config) (state : Processor × Router N)
    (routed : RoutedChoice) : Option (Processor × Router N) :=
  (setup.turn config state.2 (state.1.take routed.choice.entry) routed.draws
    routed.choice.selected).bind fun (router, selected) =>
      (Processor.step graph config state.1 { routed.choice with selected := selected }).map
        fun processor => (processor, router)

end RoutingSetup

section Routed

variable {N : Type} {graph : Graph} {setup : RoutingSetup N graph} {config : Config}
  {router after : Router N} {entry : Entry} {draws : RoutingDraws}

/-! Targets and degrees. -/

theorem targets_ne_nil (out : OutEdges graph) {vertex : Int}
    (inner : 0 < graph.outDegree vertex) : out.targets vertex.toNat ≠ [] := by
  obtain ⟨edge, member, same⟩ := List.countP_pos_iff.mp inner
  have source : edge.1 = vertex.toNat := by
    have equal := of_decide_eq_true same
    omega
  have target : edge.2 ∈ out.targets vertex.toNat := by
    rw [out.mem_targets, ← source]
    exact member
  exact List.ne_nil_of_mem target

theorem outDegree_nonneg {vertex : Int} (inner : 0 < graph.outDegree vertex) : 0 ≤ vertex := by
  obtain ⟨edge, _, same⟩ := List.countP_pos_iff.mp inner
  have equal := of_decide_eq_true same
  omega

theorem hasEdge_of_target {out : OutEdges graph} {vertex : Int} {destination : Int}
    (place : 0 ≤ vertex)
    (chosen : ∃ target ∈ out.targets vertex.toNat, destination = target) :
    graph.HasEdge vertex destination := by
  obtain ⟨target, member, rfl⟩ := chosen
  exact ⟨(vertex.toNat, target), (out.mem_targets _ _).mp member, Int.toNat_of_nonneg place, rfl⟩

/-! One turn. -/

theorem RoutingSetup.select_inside (inside : Inside setup.out router) (small : graph.size < 65536)
    {source : Nat} {currentTime : ℚ} {draws : PolicyDraws} {destination : Int}
    (some_target : setup.out.targets source ≠ [])
    (selected : setup.select router source currentTime draws = some (after, destination)) :
    Inside setup.out after ∧ ∃ target ∈ setup.out.targets source, destination = target := by
  unfold RoutingSetup.select at selected
  cases kind : setup.selection with
  | randomSelection =>
      rw [kind] at selected
      obtain ⟨rfl, rfl⟩ := Prod.mk.inj (Option.some.inj selected)
      exact ⟨inside, RandomSelection.select_mem _ _ _ _ some_target⟩
  | onPolicySelection =>
      rw [kind] at selected
      exact OnPolicySelection.select_inside inside small some_target selected

theorem RoutingSetup.turn_inside (inside : Inside setup.out router) (small : graph.size < 65536)
    {unused selected : Nat}
    (turned : setup.turn config router entry draws unused = some (after, selected)) :
    Inside setup.out after := by
  unfold RoutingSetup.turn at turned
  split at turned
  · obtain ⟨rfl, _⟩ := Prod.mk.inj (Option.some.inj turned)
    exact inside
  split at turned
  · rename_i departs
    obtain ⟨⟨next, destination⟩, chosen, same⟩ := Option.map_eq_some_iff.mp turned
    obtain ⟨rfl, _⟩ := Prod.mk.inj same
    exact (select_inside inside small (targets_ne_nil setup.out departs.2) chosen).1
  split at turned
  · split at turned
    · obtain ⟨rfl, _⟩ := Prod.mk.inj (Option.some.inj turned)
      exact inside
    · obtain ⟨next, updated, same⟩ := Option.map_eq_some_iff.mp turned
      obtain ⟨rfl, _⟩ := Prod.mk.inj same
      exact inside.response small setup.handler updated
  · obtain ⟨rfl, _⟩ := Prod.mk.inj (Option.some.inj turned)
    exact inside

theorem RoutingSetup.turn_selected (inside : Inside setup.out router) (small : graph.size < 65536)
    {unused selected : Nat} (origin : entry.origin ≠ adminEvent)
    (inTime : entry.arrival ≤ config.stopTime) (type : entry.type = departureEvent)
    (inner : 0 < graph.outDegree entry.destination)
    (turned : setup.turn config router entry draws unused = some (after, selected)) :
    graph.HasEdge entry.destination selected := by
  unfold RoutingSetup.turn at turned
  rw [if_neg (not_or.mpr ⟨origin, not_lt.mpr inTime⟩), if_pos ⟨type, inner⟩] at turned
  obtain ⟨⟨next, destination⟩, chosen, same⟩ := Option.map_eq_some_iff.mp turned
  obtain ⟨_, rfl⟩ := Prod.mk.inj same
  obtain ⟨_, target, member, rfl⟩ :=
    select_inside inside small (targets_ne_nil setup.out inner) chosen
  exact hasEdge_of_target (outDegree_nonneg inner) ⟨target, member, rfl⟩

def Delivered (graph : Graph) (processor : Processor) : Prop :=
  ∀ record ∈ processor.processed, record.entry.type = departureEvent →
    0 < graph.outDegree record.entry.destination →
      ∃ next, record.pushed = [next] ∧ next.type = arrivalEvent ∧
        graph.HasEdge record.entry.destination next.destination

theorem Delivered.handled {processor : Processor} (delivered : Delivered graph processor)
    {choice : Choice} {servers : Int → Server} {pushed : List Entry}
    (routed : (processor.take choice.entry).type = departureEvent →
      0 < graph.outDegree (processor.take choice.entry).destination →
        ∃ next, pushed = [next] ∧ next.type = arrivalEvent ∧
          graph.HasEdge (processor.take choice.entry).destination next.destination) :
    Delivered graph (processor.handled choice servers pushed) := by
  intro record member
  rcases List.mem_cons.mp member with rfl | earlier
  · exact routed
  · exact delivered record earlier

theorem Delivered.step {processor next : Processor} (delivered : Delivered graph processor)
    {choice : Choice}
    (chosen : (processor.take choice.entry).origin ≠ adminEvent →
      (processor.take choice.entry).arrival ≤ config.stopTime →
        (processor.take choice.entry).type = departureEvent →
          0 < graph.outDegree (processor.take choice.entry).destination →
            graph.HasEdge (processor.take choice.entry).destination choice.selected)
    (stepped : Processor.step graph config processor choice = some next) :
    Delivered graph next := by
  have foreign {type : Int} (other : (processor.take choice.entry).type = type)
      (apart : type ≠ departureEvent) : (processor.take choice.entry).type ≠ departureEvent :=
    fun same => apart (other.symm.trans same)
  obtain ⟨_, turn⟩ := step_cases stepped
  cases turn with
  | admin origin =>
      obtain ⟨_, effect⟩ := admin_effect (admin_cases graph config (processor.dequeue choice)
        (processor.take choice.entry) choice.gap)
      unfold Delivered
      rw [effect.processed]
      exact delivered
  | stop => exact delivered
  | «break» => exact delivered
  | arrival origin inTime type =>
      refine delivered.handled fun departs => ?_
      rcases type with type | type
      · exact absurd departs (foreign type (by decide))
      · exact absurd departs (foreign type (by decide))
  | departure origin inTime type =>
      refine delivered.handled fun departs inner => ?_
      refine ⟨_, rfl, ?_⟩
      simp only [departed, departureHandler_onward _ _ _ _ _ inner]
      exact ⟨rfl, chosen origin inTime departs inner⟩
  | ack origin inTime type pushed answered =>
      refine delivered.handled fun departs => ?_
      rcases type with type | type
      · exact absurd departs (foreign type (by decide))
      · exact absurd departs (foreign type (by decide))
  | other origin inTime type =>
      refine delivered.handled fun departs => ?_
      rw [departs] at type
      exact absurd (by decide) type

theorem RoutingSetup.step_cases {state next : Processor × Router N} {routed : RoutedChoice}
    (stepped : setup.step config state routed = some next) :
    ∃ selected, setup.turn config state.2 (state.1.take routed.choice.entry) routed.draws
        routed.choice.selected = some (next.2, selected) ∧
      Processor.step graph config state.1 { routed.choice with selected := selected } =
        some next.1 := by
  simp only [RoutingSetup.step, Option.bind_eq_some_iff, Option.map_eq_some_iff] at stepped
  obtain ⟨⟨router, selected⟩, turned, processor, done, rfl⟩ := stepped
  exact ⟨selected, turned, done⟩

def InGraph (setup : RoutingSetup N graph) (state : Processor × Router N) : Prop :=
  Inside setup.out state.2 ∧ Delivered graph state.1

theorem InGraph.step {state next : Processor × Router N} {routed : RoutedChoice}
    (inGraph : InGraph setup state) (small : graph.size < 65536)
    (stepped : setup.step config state routed = some next) : InGraph setup next := by
  obtain ⟨selected, turned, done⟩ := RoutingSetup.step_cases stepped
  exact ⟨RoutingSetup.turn_inside inGraph.1 small turned,
    inGraph.2.step (fun origin inTime type inner =>
      RoutingSetup.turn_selected inGraph.1 small origin inTime type inner turned) done⟩

theorem start_inGraph (setup : RoutingSetup N graph) (config : Config) {router : Router N}
    (unset : ∀ vertex, router.nextAction vertex = -1) :
    InGraph setup (Processor.start config, router) :=
  ⟨fun vertex _ => .inl (unset vertex), fun _ member => nomatch member⟩

/-- Routing never leaves the graph: in every state of every run the stored actions are
out-neighbours, what a selection would answer is one, and every departure led to one. -/
theorem run_routes_inside {choices : List RoutedChoice} {final : Processor × Router N}
    (small : graph.size < 65536) (unset : ∀ vertex, router.nextAction vertex = -1)
    (ran : Runs.run (setup.step config) (Processor.start config, router) choices = some final) :
    (∀ vertex : Nat, 0 < graph.outDegree vertex →
      (final.2.nextAction vertex = -1 ∨ graph.HasEdge vertex (final.2.nextAction vertex)) ∧
      ∀ currentTime draws after destination,
        setup.select final.2 vertex currentTime draws = some (after, destination) →
          graph.HasEdge vertex destination) ∧
      Delivered graph final.1 := by
  have inGraph : InGraph setup final :=
    Runs.run_invariant _ (fun _ _ _ holds stepped => holds.step small stepped)
      (start_inGraph setup config unset) ran
  refine ⟨fun vertex inner => ?_, inGraph.2⟩
  have some_target := targets_ne_nil setup.out inner
  have place := outDegree_nonneg inner
  refine ⟨(inGraph.1 vertex some_target).imp_right fun chosen => ?_, ?_⟩
  · exact hasEdge_of_target place chosen
  · intro currentTime draws after destination selected
    exact hasEdge_of_target place
      (RoutingSetup.select_inside inGraph.1 small some_target selected).2

def fork : Graph where
  size := 3
  edges := [(0, 1), (0, 2)]
  inside := by decide

def forkOut : OutEdges fork where
  targets vertex := if vertex = 0 then [1, 2] else []
  mem_targets source target := by
    by_cases root : source = 0 <;> simp [fork, root]
  distinct source := by split <;> decide

def insertionWeightSorting : WeightSorting where
  sort weights := (List.range weights.length).insertionSort fun first second =>
    weights.getD second 0 ≤ weights.getD first 0
  sort_perm _ := List.perm_insertionSort _ _
  sort_descending weights := by
    have total : Std.Total fun first second : Nat =>
        weights.getD second 0 ≤ weights.getD first 0 := ⟨fun _ _ => le_total _ _⟩
    have trans : IsTrans Nat fun first second =>
        weights.getD second 0 ≤ weights.getD first 0 := ⟨fun _ _ _ left right => le_trans right left⟩
    exact List.pairwise_insertionSort _ _

def forkSetup : RoutingSetup Unit fork where
  selection := .onPolicySelection
  sorting := insertionWeightSorting
  handler := .rl
  agent :=
    { policy := .learner .weightedPolicy
      config := forkConfig
      exp := id
      sorting := insertionSorting
      qAlpha := 1 / 10
      qLambda := 1 / 2
      outsource := false
      regretTotal := false
      incentiveDeviate := false
      randomIter := 0
      networks := { present := fun _ _ _ => ((), 0), train := fun _ _ _ => () } }
  out := forkOut

def forkRouter : Router Unit where
  nextAction _ := -1
  maps := forkMaps
  qVal _ := 0
  qStats _ := OnlineStats.fresh
  networks := ()

/-- One job out to vertex 2 and back; its acknowledgement stores the next action. -/
def forkTrip : List RoutedChoice :=
  let job := generateArrival 1 0 0 (2 : Nat)
  let first := { job with eventPath := [-1], eventArrivals := [2] }
  let second := { job with arrival := 4, eventPath := [0, -1], eventArrivals := [3, 2] }
  let routed (choice : Choice) : RoutedChoice :=
    ⟨choice, ⟨⟨3 / 4, fun _ => 0⟩, fun _ => []⟩⟩
  [routed ⟨generateAdminEventType 0 0 generateArrivalEvent, 0,
      fun vertex => if vertex = 0 then (2 : Nat) else (9 : Nat), 0⟩,
    routed ⟨job, 1, fun _ => (9 : Nat), 0⟩,
    routed ⟨{ first with arrival := 3, origin := 0, type := departureEvent, gid := 6 }, 0,
      fun _ => 0, 0⟩,
    routed ⟨{ first with arrival := 3, destination := 2, origin := 0, type := arrivalEvent, gid := 7 },
      1, fun _ => 0, 0⟩,
    routed ⟨{ second with destination := 2, origin := 2, type := departureEvent, gid := 8 },
      0, fun _ => 0, 0⟩,
    routed ⟨{ second with destination := 2, origin := 2, type := ackEvent, gid := 9 }, 0,
      fun _ => 0, 0⟩,
    routed ⟨{ first with arrival := 4, origin := 2, type := ackEvent, gid := 10 }, 0,
      fun _ => 0, 0⟩]

theorem run_routes_inside_fork :
    ∃ final, Runs.run (forkSetup.step { stopTime := 10 })
        (Processor.start { stopTime := 10 }, forkRouter) forkTrip = some final ∧
      final.2.nextAction 0 ≠ -1 ∧ fork.HasEdge 0 (final.2.nextAction 0) ∧
      Delivered fork final.1 := by
  have ends : (Runs.run (forkSetup.step { stopTime := 10 })
      (Processor.start { stopTime := 10 }, forkRouter) forkTrip).any
        (fun final => decide (final.2.nextAction 0 ≠ -1)) = true := by decide +kernel
  obtain ⟨final, ran, stored⟩ := (Option.any_eq_true _ _).mp ends
  obtain ⟨actions, delivered⟩ := run_routes_inside (by decide) (fun _ => rfl) ran
  have learnt := of_decide_eq_true stored
  exact ⟨final, ran, learnt, (actions 0 (by decide)).1.resolve_left learnt, delivered⟩

/-! The same run without the router: a run of the event loop whose policy picks out-neighbours. -/

theorem step_unselected {processor : Processor} {choice : Choice} (selected : Nat)
    (unrouted : (processor.take choice.entry).origin = adminEvent ∨
      (processor.take choice.entry).arrival > config.stopTime) :
    Processor.step graph config processor { choice with selected := selected } =
      Processor.step graph config processor choice := by
  unfold Processor.step
  by_cases origin : (processor.take choice.entry).origin = adminEvent
  · simp only [origin, if_true]
  · simp only [origin, unrouted.resolve_left origin, if_false, if_true]

theorem RoutingSetup.step_routed {state next : Processor × Router N} {routed : RoutedChoice}
    (inside : Inside setup.out state.2) (small : graph.size < 65536)
    (stepped : setup.step config state routed = some next) :
    ∃ choice, Processor.step graph config state.1 choice = some next.1 ∧
      Processor.Routed graph state.1 choice := by
  obtain ⟨selected, turned, done⟩ := RoutingSetup.step_cases stepped
  by_cases inner : 0 < graph.outDegree routed.choice.entry.destination
  · by_cases unrouted : (state.1.take routed.choice.entry).origin = adminEvent ∨
        (state.1.take routed.choice.entry).arrival > config.stopTime
    · obtain ⟨edge, member, same⟩ := List.countP_pos_iff.mp inner
      refine ⟨{ routed.choice with selected := edge.2 }, ?_, fun _ _ => ?_⟩
      · rw [step_unselected _ unrouted] at done ⊢
        exact done
      · exact ⟨edge, member, of_decide_eq_true same, rfl⟩
    · rw [not_or, not_lt] at unrouted
      refine ⟨_, done, fun type _ => ?_⟩
      have chosen := RoutingSetup.turn_selected inside small unrouted.1 unrouted.2
        (by rwa [Processor.take_type]) (by rwa [Processor.take_destination]) turned
      rwa [Processor.take_destination] at chosen
  · exact ⟨_, done, fun _ some_edge => absurd some_edge inner⟩

theorem run_routed {choices : List RoutedChoice} {state final : Processor × Router N}
    (small : graph.size < 65536) (inGraph : InGraph setup state)
    (ran : Runs.run (setup.step config) state choices = some final) :
    ∃ plain, Runs.run (Processor.step graph config) state.1 plain = some final.1 ∧
      Runs.Along (Processor.step graph config) (Processor.Routed graph) state.1 plain := by
  induction choices generalizing state with
  | nil =>
      rw [Runs.run_nil, Option.some.injEq] at ran
      exact ⟨[], congrArg some (congrArg Prod.fst ran), trivial⟩
  | cons routed rest ih =>
      rw [Runs.run_cons, Option.bind_eq_some_iff] at ran
      obtain ⟨next, stepped, later⟩ := ran
      obtain ⟨choice, done, picks⟩ := RoutingSetup.step_routed inGraph.1 small stepped
      obtain ⟨plain, ran, along⟩ := ih (inGraph.step small stepped) later
      refine ⟨choice :: plain, ?_, picks, ?_⟩
      · rw [Runs.run_cons, done]
        exact ran
      · intro other again
        rw [done] at again
        rwa [← Option.some.inj again]

/-- Jobs are conserved under every selection and response handler. -/
theorem routed_conserved {choices : List RoutedChoice} {final : Processor × Router N}
    (small : graph.size < 65536) (unset : ∀ vertex, router.nextAction vertex = -1)
    (ran : Runs.run (setup.step config) (Processor.start config, router) choices = some final) :
    Conserved graph final.1 := by
  obtain ⟨plain, ran, along⟩ := run_routed small (start_inGraph setup config unset) ran
  exact run_conserved ran along

end Routed

end RlAqs
