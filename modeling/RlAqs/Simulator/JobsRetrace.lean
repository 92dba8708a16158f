import RlAqs.Simulator.JobsTracked

/-!
Jobs are conserved: whatever the interleaving, each external job has one live event until
its leave is processed, and its events follow its itinerary.
-/

namespace RlAqs

namespace Processor

open Handlers EventGenerator

variable {graph : Graph} {config : Config} {processor next : Processor} {choice : Choice}

structure Conserved (graph : Graph) (processor : Processor) : Prop where
  ids : ∀ entry ∈ processor.pending, entry.id ≤ processor.uid
  seen : ∀ record ∈ processor.processed, record.entry.id ≤ processor.uid
  copies : ∀ entry ∈ processor.pending, entry.type = ack1hopEvent → entry.eventArrivals ≠ []
  tracked : ∀ id, Tracked graph (journey id processor.processed) (live id processor.pending)
  defined : processor.undefined = false

theorem Conserved.unborn (conserved : Conserved graph processor) {id : Nat}
    (fresh : processor.uid < id) :
    journey id processor.processed = [] ∧ live id processor.pending = [] := by
  constructor
  · have none : (processor.processed.filter fun record => record.entry.id = id) = [] := by
      simp only [List.filter_eq_nil_iff, decide_eq_true_eq]
      intro record member same
      have bound := conserved.seen record member
      omega
    simp [journey, none]
  · refine live_none fun entry member mine => ?_
    have bound := conserved.ids entry member
    omega

theorem Conserved.alone (conserved : Conserved graph processor)
    (dequeued : Dequeued processor choice) (counted : (Stop.ofEntry choice.entry).isSome) :
    live choice.entry.id processor.pending = [choice.entry] :=
  (conserved.tracked choice.entry.id).unique
    (mem_live.mpr ⟨dequeued.member, rfl, counted⟩)

theorem Conserved.inHand (conserved : Conserved graph processor)
    (dequeued : Dequeued processor choice) (counted : (Stop.ofEntry choice.entry).isSome) :
    Tracked graph (journey choice.entry.id processor.processed)
      [processor.take choice.entry] := by
  have tracked := conserved.tracked choice.entry.id
  rw [conserved.alone dequeued counted] at tracked
  exact tracked.take processor

theorem Conserved.live_rest (conserved : Conserved graph processor)
    (dequeued : Dequeued processor choice) (counted : (Stop.ofEntry choice.entry).isSome) :
    live choice.entry.id (processor.pending.erase choice.entry) = [] := by
  rw [live_erase, conserved.alone dequeued counted, List.erase_cons_head]

/-- What a turn at a vertex has to give: the job in hand goes on, the other jobs are left
alone, and a new id is a new job. -/
theorem Conserved.handled_step (conserved : Conserved graph processor)
    (dequeued : Dequeued processor choice) (servers : Int → Server) (pushed : List Entry)
    (mine : Tracked graph
      (journey choice.entry.id
        (⟨processor.take choice.entry, choice.serviceTime, pushed⟩ :: processor.processed))
      (live choice.entry.id (processor.pending.erase choice.entry ++ pushed)))
    (others : ∀ id ≠ choice.entry.id, id ≤ processor.uid → live id pushed = [])
    (fresh : ∀ id, processor.uid < id → Tracked graph [] (live id pushed))
    (ids : ∀ entry ∈ pushed, entry.id ≤ processor.uid + pushed.length)
    (copies : ∀ entry ∈ pushed, entry.type = ack1hopEvent → entry.eventArrivals ≠ []) :
    Conserved graph (processor.handled choice servers pushed) where
  ids := by
    intro entry member
    rcases List.mem_append.mp member with old | new
    · have bound := conserved.ids entry (erase_subset old)
      simp only [handled]
      omega
    · exact ids entry new
  seen := by
    intro record member
    simp only [handled] at member ⊢
    rcases List.mem_cons.mp member with rfl | old
    · have bound := conserved.ids choice.entry dequeued.member
      simp only [take_id]
      omega
    · have bound := conserved.seen record old
      omega
  copies := by
    intro entry member
    rcases List.mem_append.mp member with old | new
    · exact conserved.copies entry (erase_subset old)
    · exact copies entry new
  tracked := by
    intro id
    by_cases same : id = choice.entry.id
    · subst same
      exact mine
    · have apart : (processor.take choice.entry).id ≠ id := by
        rw [take_id]
        exact Ne.symm same
      simp only [handled]
      rw [journey_cons_other apart, live_append, live_erase_skip fun own => same own.1.symm]
      by_cases born : id ≤ processor.uid
      · rw [others id same born, List.append_nil]
        exact conserved.tracked id
      · have unborn := conserved.unborn (not_le.mp born)
        rw [unborn.1, unborn.2, List.nil_append]
        exact fresh id (not_le.mp born)
  defined := conserved.defined

theorem Conserved.putBack (conserved : Conserved graph processor)
    (dequeued : Dequeued processor choice) (id : Nat) :
    Tracked graph (journey id processor.processed)
      (live id (processor.take choice.entry :: processor.pending.erase choice.entry)) := by
  by_cases own : choice.entry.id = id ∧ (Stop.ofEntry choice.entry).isSome
  · obtain ⟨rfl, counted⟩ := own
    have found : (Stop.ofEntry (processor.take choice.entry)).isSome := by
      rwa [ofEntry_take_isSome]
    rw [live_cons_self (take_id processor choice.entry) found,
      conserved.live_rest dequeued counted]
    exact conserved.inHand dequeued counted
  · rw [live_cons_skip (by rwa [ofEntry_take_isSome, take_id]), live_erase_skip own]
    exact conserved.tracked id

/-! Admin events. -/

theorem live_announced (graph : Graph) {uid : Nat} {pushed : List Entry}
    (announced : ∀ index, (bound : index < pushed.length) →
      Announced (uid + index) pushed[index]) (id : Nat) :
    Tracked graph [] (live id pushed) ∧ (id ≤ uid → live id pushed = []) := by
  induction pushed generalizing uid with
  | nil => exact ⟨.absent, fun _ => rfl⟩
  | cons head tail ih =>
      have first := announced 0 (by simp)
      have rest := @ih (uid + 1) fun index bound => by
        have later := announced (index + 1) (by simpa using bound)
        rw [show uid + 1 + index = uid + (index + 1) by omega]
        exact later
      rw [Nat.add_zero, List.getElem_cons_zero] at first
      by_cases own : head.id = id ∧ (Stop.ofEntry head).isSome
      · have idEq : head.id = uid + 1 := by cases first <;> rfl
        rw [live_cons_self own.1 own.2, rest.2 (by omega)]
        refine ⟨?_, fun old => by omega⟩
        cases first with
        | admin time type kind =>
            rw [ofEntry_admin (generateAdminEventType uid time type) kind] at own
            cases own.2
        | arrival vertex startTime gap => exact Tracked.announced uid (Int.natCast_nonneg vertex) startTime gap
      · rw [live_cons_skip own]
        exact ⟨rest.1, fun old => rest.2 (by omega)⟩

theorem Announced.id_eq {uid : Nat} {entry : Entry} (announced : Announced uid entry) :
    entry.id = uid + 1 := by
  cases announced <;> rfl

theorem Conserved.admin_silent (conserved : Conserved graph processor)
    (dequeued : Dequeued processor choice) (origin : choice.entry.origin = adminEvent) :
    (Stop.ofEntry choice.entry).isSome = false := by
  by_contra counted
  have tracked := conserved.tracked choice.entry.id
  rw [conserved.alone dequeued (by simpa only [Bool.not_eq_false] using counted)] at tracked
  exact tracked.origin_ne_admin origin

theorem Conserved.admin_step (conserved : Conserved graph processor)
    (dequeued : Dequeued processor choice)
    (origin : (processor.take choice.entry).origin = adminEvent) :
    Conserved graph ((processor.dequeue choice).admin graph config
      (processor.take choice.entry) choice.gap) := by
  obtain ⟨pushed, effect⟩ := admin_effect (admin_cases graph config
    (processor.dequeue choice) (processor.take choice.entry) choice.gap)
  rw [take_origin] at origin
  have silent := conserved.admin_silent dequeued origin
  have rest (id : Nat) : live id (processor.pending.erase choice.entry) =
      live id processor.pending := live_erase_skip (by simp [silent])
  constructor
  · intro entry member
    rw [effect.pending] at member
    rw [effect.uid]
    rcases List.mem_append.mp member with old | new
    · have bound := conserved.ids entry (erase_subset old)
      simp only [dequeue]
      omega
    · obtain ⟨index, bound, rfl⟩ := List.getElem_of_mem new
      rw [(effect.announced index bound).id_eq]
      omega
  · intro record member
    rw [effect.processed] at member
    rw [effect.uid]
    have bound := conserved.seen record member
    simp only [dequeue]
    omega
  · intro entry member type
    rw [effect.pending] at member
    rcases List.mem_append.mp member with old | new
    · exact conserved.copies entry (erase_subset old) type
    · rcases effect.kind new with kind | kind <;> rw [type] at kind <;>
        exact absurd kind (by decide)
  · intro id
    have news := live_announced graph effect.announced id
    rw [effect.pending, effect.processed, live_append]
    simp only [dequeue] at news ⊢
    rw [rest id]
    by_cases born : id ≤ processor.uid
    · rw [news.2 born, List.append_nil]
      exact conserved.tracked id
    · have unborn := conserved.unborn (not_le.mp born)
      rw [unborn.1, unborn.2, List.nil_append]
      exact news.1
  · rw [effect.undefined]
    exact conserved.defined

/-! Events at a vertex. -/

theorem generated_id {entry new : Entry} {gap : Int → ℚ≥0}
    (member : new ∈ processor.generated entry gap) : new.id = processor.uid + 1 := by
  rw [(mem_generated processor entry member).2]
  rfl

theorem Conserved.arrival_step (conserved : Conserved graph processor)
    (dequeued : Dequeued processor choice)
    (type : (processor.take choice.entry).type = lastArrivalEvent ∨
      (processor.take choice.entry).type = arrivalEvent) (servers : Int → Server) :
    Conserved graph (processor.handled choice servers
      (processor.generated (processor.take choice.entry) choice.gap ++
        [(processor.arrived (processor.take choice.entry) choice).2])) := by
  have found := ofEntry_arrival type
  have counted : (Stop.ofEntry choice.entry).isSome := by
    rw [← ofEntry_take_isSome processor, found]
    rfl
  have inHand := conserved.inHand dequeued counted
  have old := conserved.ids choice.entry dequeued.member
  have scheduledId :
      (processor.arrived (processor.take choice.entry) choice).2.id = choice.entry.id := by
    rw [arrived_id, take_id]
  have noNew (id : Nat) (bound : id ≤ processor.uid) :
      live id (processor.generated (processor.take choice.entry) choice.gap) = [] := by
    refine live_none fun entry member own => ?_
    have idEq := generated_id member
    omega
  have noScheduled (id : Nat) (apart : id ≠ choice.entry.id) :
      live id [(processor.arrived (processor.take choice.entry) choice).2] = [] := by
    refine live_none fun entry member own => apart ?_
    rw [← own.1, List.mem_singleton.mp member, scheduledId]
  refine conserved.handled_step dequeued servers _ ?_ (fun id apart born => ?_)
    (fun id unborn => ?_) (fun entry member => ?_) fun entry member kind => ?_
  · rw [journey_cons_stop (take_id processor choice.entry) found, live_append,
      conserved.live_rest dequeued counted, List.nil_append, live_append, noNew _ old,
      List.nil_append, live_cons_self scheduledId
        (by rw [ofEntry_departure (arrived_type ..)]; rfl)]
    exact inHand.arrive type (arrived_type ..) (arrived_destination ..)
      (arrived_origin ..) (arrivalHandler_eventPath ..)
      (arrivalHandler_eventArrivals ..)
  · rw [live_append, noNew id born, noScheduled id apart]
    rfl
  · rw [live_append, noScheduled id (by omega), List.append_nil]
    unfold generated
    split
    · by_cases own : id = processor.uid + 1
      · rw [live_cons_self own.symm rfl]
        exact Tracked.announced _ (inHand.place type) _ _
      · rw [live_cons_skip fun mine => own mine.1.symm]
        exact .absent
    · exact .absent
  · rw [List.length_append, List.length_singleton]
    rcases List.mem_append.mp member with new | scheduled
    · rw [generated_id new]
      omega
    · rw [List.mem_singleton.mp scheduled, scheduledId]
      omega
  · rcases List.mem_append.mp member with new | scheduled
    · rw [(mem_generated processor _ new).2] at kind
      exact absurd kind (by decide : lastArrivalEvent ≠ ack1hopEvent)
    · rw [List.mem_singleton.mp scheduled, arrived_type] at kind
      exact absurd kind (by decide)

theorem Conserved.departure_step (conserved : Conserved graph processor)
    (dequeued : Dequeued processor choice) (routed : Routed graph processor choice)
    (type : (processor.take choice.entry).type = departureEvent) (servers : Int → Server) :
    Conserved graph (processor.handled choice servers
      [(processor.departed graph (processor.take choice.entry) choice).2]) := by
  have found := ofEntry_departure type
  have counted : (Stop.ofEntry choice.entry).isSome := by
    rw [← ofEntry_take_isSome processor, found]
    rfl
  have old := conserved.ids choice.entry dequeued.member
  have nextId :
      (processor.departed graph (processor.take choice.entry) choice).2.id =
        choice.entry.id := by
    rw [departed, departureHandler_id, take_id]
  have nextType := departureHandler_type graph
    (processor.servers (processor.take choice.entry).destination) processor.uid
    (processor.take choice.entry) choice.selected
  have nextCounted : (Stop.ofEntry
      (processor.departed graph (processor.take choice.entry) choice).2).isSome := by
    rcases nextType with kind | kind
    · rw [departed, ofEntry_arrival (.inr kind)]
      rfl
    · rw [departed, ofEntry_ack kind]
      rfl
  have noOther (id : Nat) (apart : id ≠ choice.entry.id) :
      live id [(processor.departed graph (processor.take choice.entry) choice).2] = [] := by
    refine live_none fun entry member own => apart ?_
    rw [← own.1, List.mem_singleton.mp member, nextId]
  refine conserved.handled_step dequeued servers _ ?_ (fun id apart _ => noOther id apart)
    (fun id unborn => ?_) (fun entry member => ?_) fun entry member kind => ?_
  · rw [journey_cons_stop (take_id processor choice.entry) found, live_append,
      conserved.live_rest dequeued counted, List.nil_append,
      live_cons_self nextId nextCounted]
    refine (conserved.inHand dequeued counted).depart type _ _ _ fun inner => ?_
    rw [take_type] at type
    rw [take_destination] at inner ⊢
    exact routed type inner
  · rw [noOther id (by omega)]
    exact .absent
  · rw [List.mem_singleton.mp member, nextId]
    omega
  · rw [List.mem_singleton.mp member, departed] at kind
    rcases nextType with type | type <;> rw [type] at kind <;> exact absurd kind (by decide)

theorem Conserved.silent_step (conserved : Conserved graph processor)
    (dequeued : Dequeued processor choice)
    (silent : Stop.ofEntry (processor.take choice.entry) = none) (servers : Int → Server) :
    Conserved graph (processor.handled choice servers []) := by
  have uncounted : (Stop.ofEntry choice.entry).isSome = false := by
    rw [← ofEntry_take_isSome processor, silent]
    rfl
  refine conserved.handled_step dequeued servers [] ?_ (fun _ _ _ => rfl)
    (fun _ _ => .absent) (by simp) (by simp)
  rw [journey_cons_copy silent, List.append_nil, live_erase_skip (by simp [uncounted])]
  exact conserved.tracked choice.entry.id

theorem Conserved.ack_step (conserved : Conserved graph processor)
    (dequeued : Dequeued processor choice)
    (type : (processor.take choice.entry).type = ackEvent) (servers : Int → Server)
    {pushed : List Entry}
    (answered : ackHandler graph config processor.uid (processor.take choice.entry) =
      some pushed) :
    Conserved graph (processor.handled choice servers pushed) := by
  have found := ofEntry_ack type
  have counted : (Stop.ofEntry choice.entry).isSome := by
    rw [← ofEntry_take_isSome processor, found]
    rfl
  have old := conserved.ids choice.entry dequeued.member
  obtain ⟨next, copies, rfl, nextId, tracked, noCopy, copied⟩ :=
    (conserved.inHand dequeued counted).acknowledge type answered
  rw [take_id] at nextId
  have noCopies (id : Nat) : live id copies = [] := by
    refine live_none fun entry member own => ?_
    rw [ofEntry_copy (copied entry member).1] at own
    cases own.2
  have nextCounted : (Stop.ofEntry next).isSome := by
    have types := (ackHandler_pushed answered (List.mem_cons_self (a := next))).2
    simp only [List.mem_cons, List.not_mem_nil, or_false] at types
    rcases types with kind | kind | kind
    · rw [ofEntry_ack kind]; rfl
    · exact absurd kind noCopy
    · rw [ofEntry_leave kind]; rfl
  have noOther (id : Nat) (apart : id ≠ choice.entry.id) : live id (next :: copies) = [] := by
    rw [live_cons_skip fun own => apart (own.1.symm.trans nextId), noCopies]
  refine conserved.handled_step dequeued servers _ ?_ (fun id apart _ => noOther id apart)
    (fun id unborn => ?_) (fun entry member => ?_) fun entry member kind => ?_
  · rw [journey_cons_stop (take_id processor choice.entry) found, live_append,
      conserved.live_rest dequeued counted, List.nil_append,
      live_cons_self nextId nextCounted, noCopies]
    exact tracked
  · rw [noOther id (by omega)]
    exact .absent
  · rcases List.mem_cons.mp member with rfl | copy
    · omega
    · have idEq := (copied entry copy).2.1
      rw [take_id] at idEq
      omega
  · rcases List.mem_cons.mp member with rfl | copy
    · exact absurd kind noCopy
    · exact (copied entry copy).2.2

theorem Conserved.leave_step (conserved : Conserved graph processor)
    (dequeued : Dequeued processor choice)
    (type : (processor.take choice.entry).type = leaveEvent) (servers : Int → Server) :
    Conserved graph (processor.handled choice servers []) := by
  have found := ofEntry_leave type
  have counted : (Stop.ofEntry choice.entry).isSome := by
    rw [← ofEntry_take_isSome processor, found]
    rfl
  refine conserved.handled_step dequeued servers [] ?_ (fun _ _ _ => rfl)
    (fun _ _ => .absent) (by simp) (by simp)
  rw [journey_cons_stop (take_id processor choice.entry) found, List.append_nil,
    conserved.live_rest dequeued counted]
  exact (conserved.inHand dequeued counted).leave type

theorem Conserved.no_break (conserved : Conserved graph processor)
    (dequeued : Dequeued processor choice)
    (type : (processor.take choice.entry).type = ackEvent ∨
      (processor.take choice.entry).type = ack1hopEvent)
    (empty : responseHandler (processor.take choice.entry) = none ∨
      ackHandler graph config processor.uid (processor.take choice.entry) = none) : False := by
  rcases type with type | type
  · have counted : (Stop.ofEntry choice.entry).isSome := by
      rw [← ofEntry_take_isSome processor, ofEntry_ack type]
      rfl
    have answers := (conserved.inHand dequeued counted).answers config type processor.uid
    rcases empty with empty | empty
    · exact answers.1 empty
    · exact answers.2 empty
  · rcases empty with empty | empty
    · rw [take_type] at type
      have filled := conserved.copies choice.entry dequeued.member type
      cases arrivals : choice.entry.eventArrivals with
      | nil => exact filled arrivals
      | cons time rest =>
          simp [responseHandler, Entry.getReward, Entry.topArrival, arrivals] at empty
    · rw [ackHandler, if_neg (by rw [type]; decide)] at empty
      cases empty

theorem Conserved.step (conserved : Conserved graph processor)
    (routed : Routed graph processor choice)
    (stepped : Processor.step graph config processor choice = some next) :
    Conserved graph next := by
  obtain ⟨dequeued, turn⟩ := step_cases stepped
  cases turn with
  | admin origin => exact conserved.admin_step dequeued origin
  | stop origin late =>
      constructor
      · intro entry member
        rcases List.mem_cons.mp member with rfl | old
        · rw [take_id]
          exact conserved.ids choice.entry dequeued.member
        · exact conserved.ids entry (erase_subset old)
      · exact conserved.seen
      · intro entry member type
        rcases List.mem_cons.mp member with rfl | old
        · rw [take_type] at type
          rw [take_eventArrivals]
          exact conserved.copies choice.entry dequeued.member type
        · exact conserved.copies entry (erase_subset old) type
      · exact conserved.putBack dequeued
      · exact conserved.defined
  | «break» origin inTime type empty => exact (conserved.no_break dequeued type empty).elim
  | arrival origin inTime type => exact conserved.arrival_step dequeued type _
  | departure origin inTime type => exact conserved.departure_step dequeued routed type _
  | ack origin inTime type pushed answered =>
      rcases type with type | type
      · exact conserved.ack_step dequeued type _ answered
      · rcases ackHandler_cases answered with ⟨_, rfl⟩ | ⟨acks, _⟩
        · exact conserved.silent_step dequeued (ofEntry_copy type) _
        · rw [type] at acks
          exact absurd acks (by decide)
  | other origin inTime type =>
      by_cases leaves : (processor.take choice.entry).type = leaveEvent
      · exact conserved.leave_step dequeued leaves _
      · exact conserved.silent_step dequeued (ofEntry_other type leaves) _

theorem start_conserved (graph : Graph) (config : Config) :
    Conserved graph (start config) := by
  constructor
  · intro entry member
    obtain ⟨uid, type, bound, _, rfl⟩ := start_pending member
    exact bound
  · exact fun record member => nomatch member
  · intro entry member kind
    obtain ⟨uid, type, _, admin, rfl⟩ := start_pending member
    have same : type = ack1hopEvent := kind
    rw [same] at admin
    exact absurd admin (by decide)
  · intro id
    rw [live_none]
    · exact .absent
    · intro entry member own
      obtain ⟨uid, type, _, kind, rfl⟩ := start_pending member
      rw [ofEntry_admin (generateAdminEventType uid 0 type) kind] at own
      cases own.2
  · rfl

theorem run_conserved {choices : List Choice} {final : Processor}
    (ran : Runs.run (Processor.step graph config) (start config) choices = some final)
    (routed : Runs.Along (Processor.step graph config) (Routed graph) (start config) choices) :
    Conserved graph final :=
  Runs.run_invariant_along _ (fun _ _ _ conserved picks stepped => conserved.step picks stepped)
    (start_conserved graph config) routed ran

theorem External.born {id : Nat} {processor : Processor} (external : External id processor) :
    journey id processor.processed ≠ [] ∨ live id processor.pending ≠ [] := by
  rcases external with ⟨entry, member, own, type⟩ | ⟨record, member, own, type⟩
  · refine .inr (List.ne_nil_of_mem (mem_live.mpr ⟨member, own, ?_⟩))
    rw [ofEntry_arrival (.inl type)]
    rfl
  · have found := ofEntry_arrival (.inl type : _ ∨ record.entry.type = arrivalEvent)
    refine .inl (List.ne_nil_of_mem (a := .arrive ⟨record.entry.destination,
      record.entry.arrival⟩) ?_)
    simp only [journey, List.mem_reverse, List.mem_filterMap, List.mem_filter,
      decide_eq_true_eq]
    exact ⟨record, ⟨member, own⟩, found⟩

/-- Jobs are conserved and acknowledgements retrace the path: no empty stack is read, and
for every external job the processed events are the beginning of the itinerary over the
vertices it has visited, with one live event until its leave is processed. -/
theorem run_retraces {choices : List Choice} {final : Processor}
    (ran : Runs.run (Processor.step graph config) (start config) choices = some final)
    (routed : Runs.Along (Processor.step graph config) (Routed graph) (start config) choices) :
    final.undefined = false ∧ ∀ id, External id final →
      let stops := journey id final.processed
      ∃ visited, Linked graph visited ∧ stops <+: itinerary visited ∧
        stops.filterMap Stop.visit? = visited.reverse ∧
        (stops.any Stop.isAck → ∀ visit ∈ visited.head?, graph.outDegree visit.vertex = 0) ∧
        (live id final.pending).length = if stops.any Stop.isLeave then 0 else 1 := by
  have conserved := run_conserved ran routed
  exact ⟨conserved.defined, fun id external =>
    (conserved.tracked id).retraces external.born⟩

def line : Graph where
  size := 2
  edges := [(0, 1)]
  inside := by decide

def roundTrip : List Choice :=
  let job := generateArrival 1 0 0 2
  let first := { job with eventPath := [-1], eventArrivals := [2] }
  let second := { job with arrival := 4, eventPath := [0, -1], eventArrivals := [3, 2] }
  [⟨generateAdminEventType 0 0 generateArrivalEvent, 0, fun vertex => if vertex = 0 then 2 else 9, 0⟩,
    ⟨job, 1, fun _ => 9, 0⟩,
    ⟨{ first with arrival := 3, origin := 0, type := departureEvent, gid := 5 }, 0, fun _ => 0, 1⟩,
    ⟨{ first with arrival := 3, destination := 1, origin := 0, type := arrivalEvent, gid := 6 },
      1, fun _ => 0, 0⟩,
    ⟨{ second with destination := 1, origin := 1, type := departureEvent, gid := 7 },
      0, fun _ => 0, 0⟩,
    ⟨{ second with destination := 1, origin := 1, type := ackEvent, gid := 8 }, 0, fun _ => 0, 0⟩,
    ⟨{ first with arrival := 4, origin := 1, type := ackEvent, gid := 9 }, 0, fun _ => 0, 0⟩,
    ⟨{ job with arrival := 4, destination := -1, origin := 0, type := leaveEvent, gid := 10 },
      0, fun _ => 0, 0⟩]

theorem run_retraces_roundTrip :
    ∃ final, Runs.run (Processor.step line { stopTime := 10 }) (start { stopTime := 10 })
        roundTrip = some final ∧
      final.undefined = false ∧
      ∃ visited, journey 2 final.processed <+: itinerary visited ∧
        (live 2 final.pending).length =
          if (journey 2 final.processed).any Stop.isLeave then 0 else 1 := by
  have ends : (Runs.run (Processor.step line { stopTime := 10 }) (start { stopTime := 10 })
      roundTrip).any (fun final => decide (External 2 final)) = true := by decide +kernel
  obtain ⟨final, ran, external⟩ := (Option.any_eq_true _ _).mp ends
  obtain ⟨defined, jobs⟩ := run_retraces ran (Runs.along_of_check (by decide +kernel))
  obtain ⟨visited, _, done, _, _, alive⟩ := jobs 2 (of_decide_eq_true external)
  exact ⟨final, ran, defined, visited, done, alive⟩

end Processor

end RlAqs
