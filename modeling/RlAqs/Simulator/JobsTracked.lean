import RlAqs.Simulator.JobsChecks
import RlAqs.Simulator.HandlersChecks

/-!
One job: the part of its itinerary that is done, and the one live event that stands for
the next stop. The history stacks of the event hold the visits that are still open.
-/

namespace RlAqs

open Handlers EventGenerator

structure Route (graph : Graph) (visited : List Visit) : Prop where
  linked : Linked graph visited
  inside : ∀ visit ∈ visited, 0 ≤ visit.vertex

structure Ended (graph : Graph) (visited : List Visit) : Prop extends Route graph visited where
  sink : ∀ visit ∈ visited.head?, graph.outDegree visit.vertex = 0

inductive Tracked (graph : Graph) : List Stop → List Entry → Prop
  | absent : Tracked graph [] []
  | arriving {visited : List Visit} {entry : Entry} (route : Route graph visited)
      (type : entry.type = lastArrivalEvent ∨ entry.type = arrivalEvent)
      (place : 0 ≤ entry.destination)
      (edge : ∀ visit ∈ visited.head?, graph.HasEdge visit.vertex entry.destination)
      (path : entry.origin :: entry.eventPath = visited.map Visit.vertex ++ [externalEvent])
      (arrivals : entry.eventArrivals = visited.map Visit.time) :
      Tracked graph (outward visited) [entry]
  | departing {visit : Visit} {earlier : List Visit} {entry : Entry}
      (route : Route graph (visit :: earlier)) (type : entry.type = departureEvent)
      (place : entry.destination = visit.vertex) (origin : entry.origin = visit.vertex)
      (path : entry.eventPath = earlier.map Visit.vertex ++ [externalEvent])
      (arrivals : entry.eventArrivals = (visit :: earlier).map Visit.time) :
      Tracked graph (outward earlier ++ [.arrive visit]) [entry]
  | returning {visited earlier : List Visit} {stops : List Stop} {visit : Visit}
      {entry : Entry} (ended : Ended graph visited)
      (inside : ∀ other ∈ visit :: earlier, 0 ≤ other.vertex)
      (type : entry.type = ackEvent) (place : entry.destination = visit.vertex)
      (origin : 0 ≤ entry.origin)
      (path : entry.eventPath = earlier.map Visit.vertex ++ [externalEvent])
      (arrivals : entry.eventArrivals = (visit :: earlier).map Visit.time)
      (ahead : stops ++ homeward entry.origin (visit :: earlier) = itinerary visited) :
      Tracked graph stops [entry]
  | leaving {visited : List Visit} {stops : List Stop} {entry : Entry}
      (ended : Ended graph visited) (type : entry.type = leaveEvent)
      (origin : 0 ≤ entry.origin)
      (ahead : stops ++ homeward entry.origin [] = itinerary visited) :
      Tracked graph stops [entry]
  | left {visited : List Visit} (ended : Ended graph visited) :
      Tracked graph (itinerary visited) []

namespace Tracked

variable {graph : Graph} {config : Config} {stops : List Stop} {entry : Entry}
  {entries : List Entry}

theorem unique (tracked : Tracked graph stops entries) (member : entry ∈ entries) :
    entries = [entry] := by
  cases tracked with
  | absent => cases member
  | left => cases member
  | arriving => rw [List.mem_singleton.mp member]
  | departing => rw [List.mem_singleton.mp member]
  | returning => rw [List.mem_singleton.mp member]
  | leaving => rw [List.mem_singleton.mp member]

theorem origin_ne_admin (tracked : Tracked graph stops [entry]) :
    entry.origin ≠ adminEvent := by
  have apart {vertex : Int} (inside : 0 ≤ vertex) : vertex ≠ adminEvent :=
    fun same => absurd (same ▸ inside) (by decide)
  cases tracked with
  | @arriving visited _ route type place edge path arrivals =>
      cases visited with
      | nil =>
          rw [(List.cons.inj path).1]
          decide
      | cons visit earlier =>
          rw [(List.cons.inj path).1]
          exact apart (route.inside visit List.mem_cons_self)
  | departing route type place origin path arrivals =>
      rw [origin]
      exact apart (route.inside _ List.mem_cons_self)
  | returning ended inside type place origin path arrivals ahead => exact apart origin
  | leaving ended type origin ahead => exact apart origin

theorem take (tracked : Tracked graph stops [entry]) (processor : Processor) :
    Tracked graph stops [processor.take entry] := by
  cases tracked with
  | arriving route type place edge path arrivals =>
      exact .arriving route (by simpa using type) (by simpa using place)
        (by simpa using edge) (by simpa using path) (by simpa using arrivals)
  | departing route type place origin path arrivals =>
      exact .departing route (by simpa using type) (by simpa using place)
        (by simpa using origin) (by simpa using path) (by simpa using arrivals)
  | returning ended inside type place origin path arrivals ahead =>
      exact .returning ended inside (by simpa using type) (by simpa using place)
        (by simpa using origin) (by simpa using path) (by simpa using arrivals)
        (by simpa using ahead)
  | leaving ended type origin ahead =>
      exact .leaving ended (by simpa using type) (by simpa using origin) (by simpa using ahead)

theorem announced (uid : Nat) {vertex : Int} (place : 0 ≤ vertex) (startTime : ℚ)
    (gap : ℚ≥0) : Tracked graph [] [generateArrival uid vertex startTime gap] :=
  have route : Route graph [] := ⟨.nil, by simp⟩
  .arriving route (.inl rfl) place (by simp) rfl rfl

theorem place (tracked : Tracked graph stops [entry])
    (type : entry.type = lastArrivalEvent ∨ entry.type = arrivalEvent) :
    0 ≤ entry.destination := by
  cases tracked with
  | arriving _ _ inside => exact inside
  | departing _ kind => rcases type with type | type <;> rw [kind] at type <;> contradiction
  | returning _ _ kind => rcases type with type | type <;> rw [kind] at type <;> contradiction
  | leaving _ kind => rcases type with type | type <;> rw [kind] at type <;> contradiction

theorem arrive (tracked : Tracked graph stops [entry])
    (type : entry.type = lastArrivalEvent ∨ entry.type = arrivalEvent) {scheduled : Entry}
    (leaves : scheduled.type = departureEvent)
    (place : scheduled.destination = entry.destination)
    (origin : scheduled.origin = entry.destination)
    (path : scheduled.eventPath = entry.origin :: entry.eventPath)
    (arrivals : scheduled.eventArrivals = entry.arrival :: entry.eventArrivals) :
    Tracked graph (stops ++ [.arrive ⟨entry.destination, entry.arrival⟩]) [scheduled] := by
  cases tracked with
  | @arriving visited _ route _ inside edge open_ times =>
      have longer : Route graph (⟨entry.destination, entry.arrival⟩ :: visited) := ?_
      · exact .departing longer leaves place origin (by rw [path, open_])
          (by rw [arrivals, times]; rfl)
      refine ⟨?_, ?_⟩
      · cases visited with
        | nil => exact .singleton _
        | cons visit earlier => exact route.linked.cons_cons (edge visit rfl)
      · intro visit member
        rcases List.mem_cons.mp member with rfl | earlier
        · exact inside
        · exact route.inside visit earlier
  | departing _ kind => rcases type with type | type <;> rw [kind] at type <;> contradiction
  | returning _ _ kind => rcases type with type | type <;> rw [kind] at type <;> contradiction
  | leaving _ kind => rcases type with type | type <;> rw [kind] at type <;> contradiction

theorem depart (tracked : Tracked graph stops [entry]) (type : entry.type = departureEvent)
    (server : Server) (uid selected : Nat)
    (routed : 0 < graph.outDegree entry.destination →
      graph.HasEdge entry.destination selected) :
    Tracked graph (stops ++ [.depart entry.destination])
      [(departureHandler graph server uid entry selected).2] := by
  cases tracked with
  | arriving _ kind => rcases kind with kind | kind <;> rw [kind] at type <;> contradiction
  | @departing visit earlier _ route _ place origin path arrivals =>
      have done : (outward earlier ++ [.arrive visit]) ++ [.depart entry.destination] =
          outward (visit :: earlier) := by
        rw [outward, place, List.append_assoc]
        rfl
      rcases Nat.eq_zero_or_pos (graph.outDegree entry.destination) with sink | inner
      · rw [departureHandler_home _ _ _ _ _ sink]
        have nonneg : 0 ≤ entry.destination := place ▸ route.inside visit List.mem_cons_self
        have ended : Ended graph (visit :: earlier) := by
          refine ⟨route, fun last member => ?_⟩
          obtain rfl : visit = last := by simpa using member
          rw [← place]
          exact sink
        refine .returning ended route.inside rfl place nonneg path arrivals ?_
        rw [done, itinerary_cons, ← place]
        rfl
      · rw [departureHandler_onward _ _ _ _ _ inner, done]
        refine .arriving route (.inr rfl) (Int.natCast_nonneg selected) ?_ ?_ arrivals
        · intro last member
          obtain rfl : visit = last := by simpa using member
          rw [← place]
          exact routed inner
        · change entry.origin :: entry.eventPath = _
          rw [origin, path]
          rfl
  | returning _ _ kind => rw [kind] at type; contradiction
  | leaving _ kind => rw [kind] at type; contradiction

theorem answers (config : Config) (tracked : Tracked graph stops [entry]) (type : entry.type = ackEvent)
    (uid : Nat) :
    responseHandler entry ≠ none ∧ ackHandler graph config uid entry ≠ none := by
  cases tracked with
  | arriving _ kind => rcases kind with kind | kind <;> rw [kind] at type <;> contradiction
  | departing _ kind => rw [kind] at type; contradiction
  | leaving _ kind => rw [kind] at type; contradiction
  | @returning visited earlier _ visit _ _ _ _ _ _ path arrivals _ =>
      constructor
      · simp [responseHandler, Entry.getReward, Entry.topArrival, arrivals]
      · unfold ackHandler
        rw [if_pos type]
        split
        · rename_i empty
          unfold Entry.popEvent at empty
          cases earlier <;> simp [path, arrivals] at empty
        · dsimp only
          split <;> simp

/-- After an acknowledgement the event for the stop before is pushed, and copies that
still have an arrival on their stack. -/
theorem acknowledge (tracked : Tracked graph stops [entry]) (type : entry.type = ackEvent)
    {uid : Nat} {pushed : List Entry}
    (answered : ackHandler graph config uid entry = some pushed) :
    (∃ next copies, pushed = next :: copies ∧ next.id = entry.id ∧
      Tracked graph (stops ++ [.ack entry.origin entry.destination entry.topArrival]) [next] ∧
      next.type ≠ ack1hopEvent ∧
      ∀ copy ∈ copies, copy.type = ack1hopEvent ∧ copy.id = entry.id ∧
        copy.eventArrivals ≠ []) := by
  rcases ackHandler_cases answered with ⟨noAck, _⟩ | ⟨_, destination, popped, copies, found, rfl, rest⟩
  · exact absurd type noAck
  obtain ⟨time, pathTop, arrivalsTop, same⟩ := popEvent_fields found
  have poppedId : popped.id = entry.id := by rw [same]
  have poppedPlace : popped.destination = entry.destination := by rw [same]
  cases tracked with
  | arriving _ kind => rcases kind with kind | kind <;> rw [kind] at type <;> contradiction
  | departing _ kind => rw [kind] at type; contradiction
  | leaving _ kind => rw [kind] at type; contradiction
  | @returning visited earlier _ visit _ ended inside _ place origin path arrivals ahead =>
      have nonneg : 0 ≤ entry.destination := place ▸ inside visit List.mem_cons_self
      have top : entry.topArrival = some visit.time := by
        simp [Entry.topArrival, arrivals]
      have timesLeft : popped.eventArrivals = earlier.map Visit.time := by
        rw [arrivals] at arrivalsTop
        exact ((List.cons.inj arrivalsTop).2).symm
      have done (others : List Visit)
          (step : homeward entry.origin (visit :: earlier) =
            .ack entry.origin visit.vertex (some visit.time) :: homeward visit.vertex others) :
          (stops ++ [.ack entry.origin entry.destination entry.topArrival]) ++
            homeward entry.destination others = itinerary visited := by
        rw [← ahead, step, place, top, List.append_assoc]
        rfl
      refine ⟨_, copies, rfl, by rw [followUp_id, poppedId], ?_, ?_, ?_⟩
      · cases earlier with
        | nil =>
            obtain ⟨rfl, _⟩ := List.cons.inj (path.symm.trans pathTop)
            rw [followUp, if_pos rfl]
            refine .leaving ended rfl ?_ ?_
            · change 0 ≤ popped.destination
              rw [poppedPlace]
              exact nonneg
            · change _ ++ homeward popped.destination [] = _
              rw [poppedPlace]
              exact done [] rfl
        | cons next more =>
            obtain ⟨rfl, pathLeft⟩ := List.cons.inj (path.symm.trans pathTop)
            have nextInside : 0 ≤ next.vertex :=
              inside next (List.mem_cons_of_mem _ List.mem_cons_self)
            have notExternal : next.vertex ≠ externalEvent :=
              fun same => absurd (same ▸ nextInside) (by decide)
            rw [followUp, if_neg notExternal]
            have insideLeft : ∀ other ∈ next :: more, 0 ≤ other.vertex :=
              fun other member => inside other (List.mem_cons_of_mem _ member)
            refine .returning ended insideLeft rfl rfl (poppedPlace ▸ nonneg) pathLeft.symm
              timesLeft ?_
            change _ ++ homeward popped.destination (next :: more) = _
            rw [poppedPlace]
            exact done (next :: more) rfl
      · rcases followUp_type uid popped destination with kind | kind <;> rw [kind] <;> decide
      · intro copy member
        rcases rest with rfl | ⟨inner, rfl⟩
        · cases member
        obtain ⟨gid, source, rfl⟩ := mem_ackCopies member
        refine ⟨rfl, poppedId, ?_⟩
        change popped.eventArrivals ≠ []
        rw [timesLeft]
        cases earlier with
        | nil =>
            obtain ⟨external, _⟩ := List.cons.inj (path.symm.trans pathTop)
            exact absurd external.symm inner
        | cons next more => simp

theorem leave (tracked : Tracked graph stops [entry]) (type : entry.type = leaveEvent) :
    Tracked graph (stops ++ [.leave entry.origin]) [] := by
  cases tracked with
  | arriving _ kind => rcases kind with kind | kind <;> rw [kind] at type <;> contradiction
  | departing _ kind => rw [kind] at type; contradiction
  | returning _ _ kind => rw [kind] at type; contradiction
  | leaving ended _ origin ahead =>
      change Tracked graph (stops ++ homeward entry.origin []) []
      rw [ahead]
      exact .left ended

theorem any_false_of_countP {stops : List Stop} {kind : Stop → Bool}
    (none : stops.countP kind = 0) : stops.any kind = false := by
  simpa [List.countP_eq_zero] using none

theorem no_leave {visited earlier : List Visit} {origin : Int}
    (ahead : stops ++ homeward origin earlier = itinerary visited) :
    stops.any Stop.isLeave = false := by
  have counts := congrArg (List.countP Stop.isLeave) ahead
  rw [List.countP_append, homeward_leaves] at counts
  refine any_false_of_countP ?_
  cases visited with
  | nil => simp [itinerary] at counts
  | cons visit earlier =>
      rw [itinerary_cons, List.countP_append, homeward_leaves, outward_leaves] at counts
      omega

theorem retraces (tracked : Tracked graph stops entries)
    (born : stops ≠ [] ∨ entries ≠ []) :
    ∃ visited, Linked graph visited ∧ stops <+: itinerary visited ∧
      stops.filterMap Stop.visit? = visited.reverse ∧
      (stops.any Stop.isAck → ∀ visit ∈ visited.head?, graph.outDegree visit.vertex = 0) ∧
      entries.length = if stops.any Stop.isLeave then 0 else 1 := by
  have visits {visited earlier : List Visit} {origin : Int}
      (ahead : stops ++ homeward origin earlier = itinerary visited) :
      stops.filterMap Stop.visit? = visited.reverse := by
    have same := congrArg (List.filterMap Stop.visit?) ahead
    rwa [List.filterMap_append, homeward_visits, itinerary_visits, List.append_nil] at same
  cases tracked with
  | absent => rcases born with born | born <;> exact absurd rfl born
  | @arriving visited _ route =>
      refine ⟨visited, route.linked, outward_prefix visited, outward_visits, fun acks => ?_, ?_⟩
      · rw [any_false_of_countP outward_acks] at acks
        cases acks
      · rw [any_false_of_countP outward_leaves]
        rfl
  | @departing visit earlier _ route =>
      refine ⟨visit :: earlier, route.linked, ?_, ?_, fun acks => ?_, ?_⟩
      · refine (List.prefix_append _ [.depart visit.vertex]).trans ?_
        rw [List.append_assoc]
        exact outward_prefix (visit :: earlier)
      · simp [List.filterMap_append, Stop.visit?]
      · rw [List.any_append, any_false_of_countP outward_acks] at acks
        cases acks
      · rw [List.any_append, any_false_of_countP outward_leaves]
        rfl
  | returning ended _ _ _ _ _ _ ahead =>
      refine ⟨_, ended.linked, ahead ▸ List.prefix_append _ _, visits ahead,
        fun _ => ended.sink, ?_⟩
      rw [no_leave ahead]
      rfl
  | leaving ended _ _ ahead =>
      refine ⟨_, ended.linked, ahead ▸ List.prefix_append _ _, visits ahead,
        fun _ => ended.sink, ?_⟩
      rw [no_leave ahead]
      rfl
  | @left visited ended =>
      refine ⟨visited, ended.linked, List.prefix_refl _, itinerary_visits,
        fun _ => ended.sink, ?_⟩
      cases visited with
      | nil => rcases born with born | born <;> exact absurd rfl born
      | cons visit earlier =>
          have some : 0 < (itinerary (visit :: earlier)).countP Stop.isLeave := by
            rw [itinerary_cons, List.countP_append, homeward_leaves]
            omega
          rw [if_pos (List.any_eq_true.mpr (List.countP_pos_iff.mp some))]
          rfl

end Tracked

end RlAqs
