import RlAqs.Simulator.JobsCore
import RlAqs.Simulator.ServersMatch

/-!
The history stacks of all pending events, the copies for the neighbours included: the path of
an event runs along edges, and an answer comes back over one.
-/

namespace RlAqs

open Handlers EventGenerator

def Under (graph : Graph) (later earlier : Int) : Prop :=
  earlier = externalEvent ∨ graph.HasEdge earlier later

structure OnPath (graph : Graph) (entry : Entry) : Prop where
  arriving : entry.type = lastArrivalEvent ∨ entry.type = arrivalEvent →
    (entry.destination :: entry.origin :: entry.eventPath).IsChain (Under graph)
  departing : entry.type = departureEvent → entry.origin = entry.destination
  visited : entry.type = departureEvent ∨ entry.type = ackEvent →
    (entry.destination :: entry.eventPath).IsChain (Under graph)
  answered : entry.type = ackEvent ∨ entry.type = ack1hopEvent →
    0 < graph.outDegree entry.destination → graph.HasEdge entry.destination entry.origin

namespace OnPath

variable {graph : Graph} {config : Config} {entry : Entry}

theorem idle (type : ack1hopEvent < entry.type) : OnPath graph entry where
  arriving kinds := by rcases kinds with kind | kind <;> rw [kind] at type <;> contradiction
  departing kind := by rw [kind] at type; contradiction
  visited kinds := by rcases kinds with kind | kind <;> rw [kind] at type <;> contradiction
  answered kinds := by rcases kinds with kind | kind <;> rw [kind] at type <;> contradiction

theorem arrival (type : entry.type = lastArrivalEvent ∨ entry.type = arrivalEvent)
    (chain : (entry.destination :: entry.origin :: entry.eventPath).IsChain (Under graph)) :
    OnPath graph entry where
  arriving _ := chain
  departing kind := by rcases type with type | type <;> rw [kind] at type <;> contradiction
  visited kinds := by
    rcases type with type | type <;> rw [type] at kinds <;> exact absurd kinds (by decide)
  answered kinds := by
    rcases type with type | type <;> rw [type] at kinds <;> exact absurd kinds (by decide)

theorem departure (type : entry.type = departureEvent) (origin : entry.origin = entry.destination)
    (chain : (entry.destination :: entry.eventPath).IsChain (Under graph)) :
    OnPath graph entry where
  arriving kinds := absurd (type ▸ kinds) (by decide)
  departing _ := origin
  visited _ := chain
  answered kinds := absurd (type ▸ kinds) (by decide)

theorem ack (type : entry.type = ackEvent)
    (chain : (entry.destination :: entry.eventPath).IsChain (Under graph))
    (answered : 0 < graph.outDegree entry.destination →
      graph.HasEdge entry.destination entry.origin) : OnPath graph entry where
  arriving kinds := absurd (type ▸ kinds) (by decide)
  departing kind := absurd (type ▸ kind) (by decide)
  visited _ := chain
  answered _ := answered

theorem copy (type : entry.type = ack1hopEvent)
    (answered : graph.HasEdge entry.destination entry.origin) : OnPath graph entry where
  arriving kinds := absurd (type ▸ kinds) (by decide)
  departing kind := absurd (type ▸ kind) (by decide)
  visited kinds := absurd (type ▸ kinds) (by decide)
  answered _ _ := answered

theorem announced {uid : Nat} (new : Processor.Announced uid entry) : OnPath graph entry := by
  cases new with
  | admin time type kind =>
      exact idle (lt_of_lt_of_le (by decide : ack1hopEvent < logGraphEvent) kind)
  | arrival vertex startTime gap =>
      exact arrival (.inl rfl) (.cons_cons (.inl rfl) (.singleton _))

theorem served (onPath : OnPath graph entry)
    (type : entry.type = lastArrivalEvent ∨ entry.type = arrivalEvent) {server : Server}
    {uid : Nat} {serviceTime : ℚ≥0} :
    OnPath graph (arrivalHandler server uid entry serviceTime).2 := by
  refine departure (arrivalHandler_type ..) ?_ ?_
  · rw [arrivalHandler_origin, arrivalHandler_destination]
  · rw [arrivalHandler_destination, arrivalHandler_eventPath]
    exact onPath.arriving type

theorem departed (onPath : OnPath graph entry) (type : entry.type = departureEvent)
    {server : Server} {uid selected : Nat}
    (routed : 0 < graph.outDegree entry.destination →
      graph.HasEdge entry.destination selected) :
    OnPath graph (departureHandler graph server uid entry selected).2 := by
  have chain := onPath.visited (.inl type)
  rcases Nat.eq_zero_or_pos (graph.outDegree entry.destination) with sink | inner
  · rw [departureHandler_home _ _ _ _ _ sink]
    refine ack rfl chain fun some_edge => ?_
    exact absurd some_edge (by simpa [Entry.acknowledge] using sink)
  · rw [departureHandler_onward _ _ _ _ _ inner]
    have edge : Under graph selected entry.destination := .inr (routed inner)
    rw [← onPath.departing type] at edge chain
    exact arrival (.inr rfl) (.cons_cons edge chain)

theorem copied {uid : Nat} {destination : Int} {new : Entry}
    (member : new ∈ ackCopies graph uid entry destination) : OnPath graph new := by
  unfold ackCopies at member
  simp only [List.mem_mapIdx] at member
  obtain ⟨index, bound, rfl⟩ := member
  have source := (List.mem_filter.mp (List.getElem_mem bound)).1
  obtain ⟨edge, listed, same⟩ := List.mem_map.mp source
  obtain ⟨inside, target⟩ := List.mem_filter.mp listed
  exact copy rfl ⟨edge, inside, same, of_decide_eq_true target⟩

theorem followed (onPath : OnPath graph entry) (type : entry.type = ackEvent)
    {destination : Int} {popped : Entry} (found : entry.popEvent = some (destination, popped))
    (uid : Nat) : OnPath graph (followUp uid popped destination) := by
  obtain ⟨time, path, arrivals, same⟩ := popEvent_fields found
  have chain := onPath.visited (.inr type)
  rw [path] at chain
  unfold followUp
  split
  · exact idle (by decide : ack1hopEvent < leaveEvent)
  · rename_i inner
    obtain ⟨under, rest⟩ := List.isChain_cons_cons.mp chain
    have here : popped.destination = entry.destination := by rw [same]
    exact ack rfl rest fun _ => here ▸ under.resolve_left inner

theorem answers (onPath : OnPath graph entry) {uid : Nat} {pushed : List Entry}
    (answered : ackHandler graph config uid entry = some pushed) :
    ∀ new ∈ pushed, OnPath graph new := by
  rcases ackHandler_cases answered with
    ⟨_, rfl⟩ | ⟨type, destination, popped, copies, found, rfl, hops⟩
  · simp
  · intro new member
    rcases List.mem_cons.mp member with rfl | copy
    · exact onPath.followed type found uid
    · rcases hops with rfl | ⟨_, rfl⟩
      · cases copy
      · exact copied copy

end OnPath

namespace Processor

variable {graph : Graph} {config : Config} {processor next : Processor} {choice : Choice}

theorem onPath_step (begun : 0 ≤ config.stopTime) (consistent : Consistent config processor)
    (onPaths : ∀ entry ∈ processor.pending, OnPath graph entry)
    (routed : Routed graph processor choice)
    (stepped : Processor.step graph config processor choice = some next) :
    ∀ entry ∈ next.pending, OnPath graph entry := by
  obtain ⟨dequeued, turn⟩ := step_cases stepped
  have inHand := take_eq ((consistent.timed begun).future _ dequeued.member)
  have here := onPaths _ dequeued.member
  have kept (entry : Entry) (member : entry ∈ processor.pending.erase choice.entry) :
      OnPath graph entry := onPaths entry (erase_subset member)
  have putBack : ∀ entry ∈ choice.entry :: processor.pending.erase choice.entry,
      OnPath graph entry := List.forall_mem_cons.mpr ⟨here, kept⟩
  have pushes {pushed : List Entry} (new : ∀ entry ∈ pushed, OnPath graph entry) :
      ∀ entry ∈ processor.pending.erase choice.entry ++ pushed, OnPath graph entry :=
    List.forall_mem_append.mpr ⟨kept, new⟩
  cases turn with
  | admin origin =>
      obtain ⟨pushed, effect⟩ := admin_effect (admin_cases graph config
        (processor.dequeue choice) (processor.take choice.entry) choice.gap)
      rw [effect.pending]
      refine pushes fun entry member => ?_
      obtain ⟨index, bound, rfl⟩ := List.getElem_of_mem member
      exact .announced (effect.announced index bound)
  | stop origin late =>
      rw [inHand]
      exact putBack
  | «break» origin inTime type empty =>
      rw [inHand]
      exact putBack
  | arrival origin inTime type =>
      rw [inHand] at type ⊢
      refine pushes (List.forall_mem_append.mpr ⟨fun entry member => ?_, ?_⟩)
      · rw [(mem_generated processor _ member).2]
        have placed := (consistent.placed _ dequeued.member (by
          rcases type with kind | kind <;> rw [kind] <;> decide)).1
        obtain ⟨vertex, same⟩ := Int.eq_ofNat_of_zero_le placed
        unfold generateArrivalsHandler
        rw [same]
        exact .announced (.arrival vertex _ _)
      · rw [List.forall_mem_singleton]
        exact here.served type
  | departure origin inTime type =>
      rw [inHand] at type ⊢
      refine pushes (List.forall_mem_singleton.mpr ?_)
      exact here.departed type (routed type)
  | ack origin inTime type pushed answered =>
      rw [inHand] at answered
      exact pushes (here.answers answered)
  | other origin inTime type => exact pushes (by simp)

theorem run_onPath (begun : 0 ≤ config.stopTime) {choices : List Choice} {final : Processor}
    (routed : Runs.Along (Processor.step graph config) (Routed graph) (start config) choices)
    (ran : Runs.run (Processor.step graph config) (start config) choices = some final) :
    ∀ entry ∈ final.pending, OnPath graph entry := by
  have holds := Runs.run_invariant_along
    (fun state => Consistent config state ∧ ∀ entry ∈ state.pending, OnPath graph entry)
    (fun state choice next holds chosen stepped =>
      ⟨holds.1.step stepped, onPath_step begun holds.1 holds.2 chosen stepped⟩)
    ⟨start_consistent config, fun entry member => by
      obtain ⟨uid, type, _, kind, rfl⟩ := start_pending member
      exact .announced (.admin 0 type kind)⟩ routed ran
  exact holds.2

end Processor

end RlAqs
