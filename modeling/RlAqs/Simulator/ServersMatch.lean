import RlAqs.Simulator.ProcessorCases
import RlAqs.Simulator.ServersServed

/-!
The servers agree with the pending departures in every state the loop reaches. The clock
matters to this only through the events in the queue: none of them lies in the past, so
the correction of the clock is never used. A negative stop time is the exception, with
which the loop handles admin events only.
-/

namespace RlAqs

def Record.IsVisit (vertex : Int) (record : Record) : Prop :=
  (record.entry.type = lastArrivalEvent ∨ record.entry.type = arrivalEvent) ∧
    record.entry.destination = vertex

instance (vertex : Int) (record : Record) : Decidable (record.IsVisit vertex) :=
  inferInstanceAs (Decidable (_ ∧ _))

def visits (vertex : Int) (processed : List Record) : List Record :=
  (processed.filter fun record => record.IsVisit vertex).reverse

section visits

variable {vertex : Int} {record : Record} {processed : List Record}

theorem visits_cons_visit (visit : record.IsVisit vertex) :
    visits vertex (record :: processed) = visits vertex processed ++ [record] := by
  simp [visits, visit]

theorem visits_cons_other (other : ¬ record.IsVisit vertex) :
    visits vertex (record :: processed) = visits vertex processed := by
  simp [visits, other]

end visits

namespace Processor

open Handlers EventGenerator

variable {graph : Graph} {config : Config} {processor next : Processor} {choice : Choice}

def Placed (entry : Entry) : Prop :=
  entry.type ≤ departureEvent → 0 ≤ entry.destination ∧ entry.origin ≠ adminEvent

/-- No pending event lies in the past, and the periodic admin events are not ahead of
their counters. -/
structure Timed (config : Config) (processor : Processor) : Prop where
  future : ∀ entry ∈ processor.pending, processor.oldTime ≤ entry.arrival
  logged : ∀ entry ∈ processor.pending, entry.type = logGraphEvent →
    entry.arrival ≤ processor.counter * logGraphInterval config
  serialised : ∀ entry ∈ processor.pending, entry.type = serialiseArrivalEvent →
    entry.arrival ≤ serialiseInterval config * processor.currentTimeStep

structure Consistent (config : Config) (processor : Processor) : Prop where
  clock : 0 ≤ processor.oldTime
  timed : 0 ≤ config.stopTime → Timed config processor
  placed : ∀ entry ∈ processor.pending, Placed entry
  served : ∀ vertex, Served config (processor.servers vertex)
    (departures vertex processor.pending)

theorem external_ne_admin : externalEvent ≠ adminEvent := by decide

theorem ne_admin_of_nonneg {vertex : Int} (placed : 0 ≤ vertex) : vertex ≠ adminEvent :=
  fun same => absurd (same ▸ placed) (by decide)

theorem Announced.placed {uid : Nat} {entry : Entry} (announced : Announced uid entry) :
    Placed entry := by
  cases announced with
  | admin time type kind =>
      exact fun low => absurd (kind.trans low) (by decide)
  | arrival vertex startTime gap =>
      exact fun _ => ⟨Int.natCast_nonneg vertex, external_ne_admin⟩

/-! The entries pushed for an event. -/

section pushes

variable (processor : Processor) (entry : Entry) (choice : Choice)

theorem departures_arrival (vertex : Int) :
    departures vertex
        (processor.generated entry choice.gap ++ [(processor.arrived entry choice).2]) =
      if entry.destination = vertex then [(processor.arrived entry choice).2] else [] := by
  have none : departures vertex (processor.generated entry choice.gap) = [] := by
    refine departures_none fun new member => ?_
    rw [(mem_generated processor entry member).2]
    simp [generateArrivalsHandler, generateArrival, Entry.new]
  rw [departures_append, none, List.nil_append]
  split
  · rename_i same
    simp [departures, same]
  · rename_i other
    simp [departures, other]

theorem placed_arrival (placed : 0 ≤ entry.destination) {new : Entry}
    (member : new ∈ processor.generated entry choice.gap ++
      [(processor.arrived entry choice).2]) : Placed new := by
  rcases List.mem_append.mp member with generated | scheduled
  · rw [(mem_generated processor entry generated).2]
    exact fun _ => ⟨placed, external_ne_admin⟩
  · rw [List.mem_singleton.mp scheduled]
    intro _
    rw [arrived_destination, arrived_origin]
    exact ⟨placed, ne_admin_of_nonneg placed⟩

theorem placed_departure (origin : entry.origin ≠ adminEvent) :
    Placed (processor.departed graph entry choice).2 := by
  unfold departed
  rcases Nat.eq_zero_or_pos (graph.outDegree entry.destination) with sink | inner
  · rw [departureHandler_home _ _ _ _ _ sink]
    exact fun low => absurd low (by decide : ¬ ackEvent ≤ departureEvent)
  · rw [departureHandler_onward _ _ _ _ _ inner]
    exact fun _ => ⟨Int.natCast_nonneg choice.selected, origin⟩

theorem placed_answer {pushed : List Entry}
    (answered : ackHandler graph config processor.uid entry = some pushed) {new : Entry}
    (member : new ∈ pushed) : Placed new := by
  have types := (ackHandler_pushed answered member).2
  intro low
  simp only [List.mem_cons, List.not_mem_nil, or_false] at types
  rcases types with type | type | type <;> rw [type] at low <;> contradiction

end pushes

theorem Consistent.clock_step (consistent : Consistent config processor)
    (choice : Choice) : 0 ≤ (processor.take choice.entry).arrival :=
  consistent.clock.trans (oldTime_le_take processor choice.entry)

theorem placed_take {entry : Entry} (placed : Placed entry) :
    Placed (processor.take entry) := by
  intro low
  rw [take_type] at low
  rw [take_destination, take_origin]
  exact placed low

theorem Consistent.placed_step (consistent : Consistent config processor)
    (dequeued : Dequeued processor choice) (turn : Turn graph config processor choice next) :
    ∀ entry ∈ next.pending, Placed entry := by
  have kept (entry : Entry) (member : entry ∈ processor.pending.erase choice.entry) :
      Placed entry := consistent.placed entry (erase_subset member)
  have inHand := consistent.placed choice.entry dequeued.member
  intro entry member
  cases turn with
  | admin origin =>
      obtain ⟨pushed, effect⟩ := admin_effect (admin_cases graph config
        (processor.dequeue choice) (processor.take choice.entry) choice.gap)
      rw [effect.pending] at member
      rcases List.mem_append.mp member with old | new
      · exact kept entry old
      · obtain ⟨index, bound, rfl⟩ := List.getElem_of_mem new
        exact (effect.announced index bound).placed
  | stop origin late =>
      rcases List.mem_cons.mp member with rfl | old
      · exact placed_take inHand
      · exact kept entry old
  | «break» origin inTime type empty =>
      rcases List.mem_cons.mp member with rfl | old
      · exact placed_take inHand
      · exact kept entry old
  | arrival origin inTime type =>
      rcases List.mem_append.mp member with old | new
      · exact kept entry old
      · refine placed_arrival processor _ choice ?_ new
        have low : choice.entry.type ≤ departureEvent := by
          rw [take_type] at type
          rcases type with type | type <;> rw [type] <;> decide
        rw [take_destination]
        exact (inHand low).1
  | departure origin inTime type =>
      rcases List.mem_append.mp member with old | new
      · exact kept entry old
      · rw [List.mem_singleton.mp new]
        exact placed_departure processor _ choice origin
  | ack origin inTime type pushed answered =>
      rcases List.mem_append.mp member with old | new
      · exact kept entry old
      · exact placed_answer processor _ answered new
  | other origin inTime type =>
      simp only [handled, List.append_nil] at member
      exact kept entry member

/-! One turn at a vertex. -/

/-- What a turn does to the server of a vertex, to its pending departures and to the arrivals
processed for it. -/
inductive VertexTurn (graph : Graph) (config : Config) (vertex : Int) (processor : Processor)
    (choice : Choice) : Server → List Entry → List Record → Prop
  | same {leaving : List Entry} (perm : leaving.Perm (departures vertex processor.pending)) :
      VertexTurn graph config vertex processor choice (processor.servers vertex) leaving
        (visits vertex processor.processed)
  | arrival (begun : 0 ≤ config.stopTime) (entry : Entry)
      (time : entry.arrival = (processor.take choice.entry).arrival)
      (type : entry.type = lastArrivalEvent ∨ entry.type = arrivalEvent)
      (ahead : (processor.servers vertex).busy = true →
        entry.arrival ≤ (processor.servers vertex).timeServiceEnds)
      (uid : Nat) (serviceTime : ℚ≥0) {pushed : List Entry}
      (only : departures vertex pushed =
        [(arrivalHandler (numEventsHandler (processor.servers vertex) entry) uid entry
          serviceTime).2]) :
      VertexTurn graph config vertex processor choice
        (arrivalHandler (numEventsHandler (processor.servers vertex) entry) uid entry
          serviceTime).1
        (departures vertex processor.pending ++
          [(arrivalHandler (numEventsHandler (processor.servers vertex) entry) uid entry
            serviceTime).2])
        (visits vertex processor.processed ++ [⟨entry, serviceTime, pushed⟩])
  | departure (member : choice.entry ∈ departures vertex processor.pending)
      (time : choice.entry.arrival = (processor.take choice.entry).arrival) (uid : Nat)
      (handled : Entry) (selected : Nat) :
      VertexTurn graph config vertex processor choice
        (departureHandler graph (processor.servers vertex) uid handled selected).1
        ((departures vertex processor.pending).erase choice.entry)
        (visits vertex processor.processed)

namespace VertexTurn

variable {vertex : Int}

theorem frame {pushed : List Entry}
    (kept : ¬(choice.entry.type = departureEvent ∧ choice.entry.destination = vertex))
    (none : ∀ entry ∈ pushed, ¬(entry.type = departureEvent ∧ entry.destination = vertex)) :
    VertexTurn graph config vertex processor choice (processor.servers vertex)
      (departures vertex (processor.pending.erase choice.entry ++ pushed))
      (visits vertex processor.processed) := by
  rw [departures_append, departures_erase_of_ne kept, departures_none none, List.append_nil]
  exact .same (.refl _)

/-- The event the loop stops at is put back; a departure among them is not corrected. -/
theorem putBack (consistent : Consistent config processor)
    (dequeued : Dequeued processor choice) :
    VertexTurn graph config vertex processor choice (processor.servers vertex)
      (departures vertex (processor.take choice.entry :: processor.pending.erase choice.entry))
      (visits vertex processor.processed) := by
  by_cases leaves : choice.entry.type = departureEvent ∧ choice.entry.destination = vertex
  · have inside := mem_departures.mpr ⟨dequeued.member, leaves⟩
    have served := consistent.served vertex
    have begun := served.begun (served.busy_of_mem inside)
    rw [take_eq ((consistent.timed begun).future _ dequeued.member)]
    exact .same ((List.perm_cons_erase dequeued.member).symm.filter _)
  · have skipped : departures vertex [processor.take choice.entry] = [] :=
      departures_none (by simpa using leaves)
    rw [← List.singleton_append, departures_append, skipped, List.nil_append,
      departures_erase_of_ne leaves]
    exact .same (.refl _)

end VertexTurn

/-- A busy server ends its service no earlier than the event in hand. -/
theorem Consistent.arrival_le_ends (consistent : Consistent config processor)
    (dequeued : Dequeued processor choice) {vertex : Int}
    (busy : (processor.servers vertex).busy = true) :
    choice.entry.arrival ≤ (processor.servers vertex).timeServiceEnds := by
  obtain ⟨last, member, ends⟩ := (consistent.served vertex).latest busy
  rw [← ends]
  exact dequeued.earliest last (mem_departures.mp member).1

theorem Consistent.vertexTurn (consistent : Consistent config processor)
    (dequeued : Dequeued processor choice) (turn : Turn graph config processor choice next)
    (vertex : Int) :
    VertexTurn graph config vertex processor choice (next.servers vertex)
      (departures vertex next.pending) (visits vertex next.processed) := by
  have ignored (servers : Int → Server) (pushed : List Entry)
      (type : ¬((processor.take choice.entry).type = lastArrivalEvent ∨
        (processor.take choice.entry).type = arrivalEvent)) :
      visits vertex (processor.handled choice servers pushed).processed =
        visits vertex processor.processed :=
    visits_cons_other fun visit => type visit.1
  cases turn with
  | admin origin =>
      obtain ⟨pushed, effect⟩ := admin_effect (admin_cases graph config
        (processor.dequeue choice) (processor.take choice.entry) choice.gap)
      rw [effect.servers, effect.pending, effect.processed]
      rw [take_origin] at origin
      refine .frame ?_ fun entry member leaves => ?_
      · rintro ⟨type, _⟩
        exact (consistent.placed choice.entry dequeued.member type.le).2 origin
      · rcases effect.kind member with type | type <;> rw [leaves.1] at type <;>
          exact absurd type (by decide)
  | stop origin late => exact .putBack consistent dequeued
  | «break» origin inTime type empty => exact .putBack consistent dequeued
  | arrival origin inTime type =>
      have begun : 0 ≤ config.stopTime := (consistent.clock_step choice).trans inTime
      have taken := take_eq ((consistent.timed begun).future _ dequeued.member)
      have kept : ¬(choice.entry.type = departureEvent ∧ choice.entry.destination = vertex) := by
        rw [take_type] at type
        rintro ⟨leaves, _⟩
        rcases type with type | type <;> rw [leaves] at type <;> exact absurd type (by decide)
      have pushes := departures_arrival processor (processor.take choice.entry) choice vertex
      simp only [handled]
      rw [departures_append, departures_erase_of_ne kept]
      by_cases here : (processor.take choice.entry).destination = vertex
      · rw [if_pos here] at pushes
        rw [visits_cons_visit ⟨type, here⟩, pushes]
        subst here
        rw [Function.update_self]
        refine .arrival begun (processor.take choice.entry) rfl type (fun busy => ?_) _ _ pushes
        rw [taken] at busy ⊢
        exact consistent.arrival_le_ends dequeued busy
      · rw [if_neg here] at pushes
        rw [visits_cons_other fun visit => here visit.2, pushes, List.append_nil,
          Function.update_of_ne (Ne.symm here)]
        exact .same (.refl _)
  | departure origin inTime type =>
      have begun : 0 ≤ config.stopTime := (consistent.clock_step choice).trans inTime
      have taken := take_eq ((consistent.timed begun).future _ dequeued.member)
      have none : departures vertex
          [(processor.departed graph (processor.take choice.entry) choice).2] = [] := by
        refine departures_none fun entry member leaves => ?_
        rw [List.mem_singleton.mp member] at leaves
        unfold departed at leaves
        rcases departureHandler_type graph
          (processor.servers (processor.take choice.entry).destination) processor.uid
          (processor.take choice.entry) choice.selected with kind | kind <;>
        · rw [leaves.1] at kind
          exact absurd kind (by decide)
      rw [ignored _ _ fun arrives => by
        rcases arrives with arrives | arrives <;> rw [type] at arrives <;>
          exact absurd arrives (by decide)]
      simp only [handled]
      rw [departures_append, none, List.append_nil]
      rw [take_type] at type
      by_cases here : choice.entry.destination = vertex
      · rw [take_destination, here, Function.update_self, departures_erase]
        have inside := mem_departures.mpr ⟨dequeued.member, type, here⟩
        have leaving : VertexTurn graph config vertex processor choice _ _ _ :=
          .departure inside (by rw [taken]) processor.uid (processor.take choice.entry)
            choice.selected
        simpa only [departed, take_destination, here] using leaving
      · rw [take_destination, Function.update_of_ne (Ne.symm here),
          departures_erase_of_ne (by simp [here])]
        exact .same (.refl _)
  | ack origin inTime type pushed answered =>
      rw [ignored _ _ fun arrives => by
        rcases arrives with arrives | arrives <;> rw [arrives] at type <;>
          exact absurd type (by decide)]
      rw [take_type] at type
      refine .frame ?_ fun entry member leaves => ?_
      · rintro ⟨leaves, _⟩
        rcases type with type | type <;> rw [leaves] at type <;> exact absurd type (by decide)
      · have types := (ackHandler_pushed answered member).2
        rw [leaves.1] at types
        exact absurd types (by decide)
  | other origin inTime type =>
      rw [ignored _ _ fun arrives => type (by rcases arrives with arrives | arrives <;>
        rw [arrives] <;> decide)]
      rw [take_type] at type
      refine .frame ?_ (by simp)
      rintro ⟨leaves, _⟩
      exact type (by simp [leaves])

theorem Consistent.served_step (consistent : Consistent config processor)
    (dequeued : Dequeued processor choice) (turn : Turn graph config processor choice next)
    (vertex : Int) :
    Served config (next.servers vertex) (departures vertex next.pending) := by
  have served := consistent.served vertex
  have here := consistent.vertexTurn dequeued turn vertex
  generalize next.servers vertex = server at here ⊢
  generalize departures vertex next.pending = leaving at here ⊢
  generalize visits vertex next.processed = records at here
  cases here with
  | same perm => exact served.perm perm.symm
  | arrival begun entry time type ahead uid serviceTime only =>
      exact (served.numEvents entry).arrival begun uid entry serviceTime
  | departure member time uid handled selected =>
      refine served.departure member (fun other inside => ?_) graph uid handled selected
      exact dequeued.earliest other (mem_departures.mp inside).1

/-! The clock. -/

theorem serialiseInterval_nonneg (positive : 0 ≤ config.stopTime) :
    0 ≤ serialiseInterval config := div_nonneg positive (Nat.cast_nonneg _)

theorem logGraphInterval_nonneg (positive : 0 ≤ config.stopTime) :
    0 ≤ logGraphInterval config := by
  unfold logGraphInterval
  split
  · rename_i rate
    exact div_nonneg positive (Int.cast_nonneg (by omega))
  · exact positive

theorem Timed.pushed (timed : Timed config processor) (positive : 0 ≤ config.stopTime)
    (dequeued : Dequeued processor choice) {pushed : List Entry}
    (pending : next.pending = processor.pending.erase choice.entry ++ pushed)
    (clock : next.oldTime = choice.entry.arrival)
    (counter : processor.counter ≤ next.counter)
    (currentTimeStep : processor.currentTimeStep ≤ next.currentTimeStep)
    (future : ∀ entry ∈ pushed, choice.entry.arrival ≤ entry.arrival)
    (logged : ∀ entry ∈ pushed, entry.type = logGraphEvent →
      entry.arrival ≤ next.counter * logGraphInterval config)
    (serialised : ∀ entry ∈ pushed, entry.type = serialiseArrivalEvent →
      entry.arrival ≤ serialiseInterval config * next.currentTimeStep) :
    Timed config next where
  future := by
    intro entry member
    rw [pending] at member
    rw [clock]
    rcases List.mem_append.mp member with old | new
    · exact dequeued.earliest entry (erase_subset old)
    · exact future entry new
  logged := by
    intro entry member type
    rw [pending] at member
    rcases List.mem_append.mp member with old | new
    · have counters : (processor.counter : ℚ) ≤ next.counter := by exact_mod_cast counter
      exact (timed.logged entry (erase_subset old) type).trans
        (mul_le_mul_of_nonneg_right counters (logGraphInterval_nonneg positive))
    · exact logged entry new type
  serialised := by
    intro entry member type
    rw [pending] at member
    rcases List.mem_append.mp member with old | new
    · have steps : (processor.currentTimeStep : ℚ) ≤ next.currentTimeStep := by
        exact_mod_cast currentTimeStep
      exact (timed.serialised entry (erase_subset old) type).trans
        (mul_le_mul_of_nonneg_left steps (serialiseInterval_nonneg positive))
    · exact serialised entry new type

theorem Timed.plain (timed : Timed config processor) (positive : 0 ≤ config.stopTime)
    (dequeued : Dequeued processor choice) {pushed : List Entry}
    (pending : next.pending = processor.pending.erase choice.entry ++ pushed)
    (clock : next.oldTime = choice.entry.arrival) (counter : next.counter = processor.counter)
    (currentTimeStep : next.currentTimeStep = processor.currentTimeStep)
    (future : ∀ entry ∈ pushed, choice.entry.arrival ≤ entry.arrival)
    (plain : ∀ entry ∈ pushed, entry.type < logGraphEvent) : Timed config next := by
  refine timed.pushed positive dequeued pending clock counter.ge currentTimeStep.ge future
    (fun entry member type => ?_) fun entry member type => ?_
  · have low := plain entry member
    rw [type] at low
    exact absurd low (by decide)
  · have low := plain entry member
    rw [type] at low
    exact absurd low (by decide)

theorem Timed.admin_step (timed : Timed config processor) (positive : 0 ≤ config.stopTime)
    (dequeued : Dequeued processor choice) :
    Timed config
      ((processor.dequeue choice).admin graph config (processor.take choice.entry)
        choice.gap) := by
  have taken := take_eq (timed.future _ dequeued.member)
  have clock : (processor.dequeue choice).oldTime = choice.entry.arrival := by
    rw [dequeue, taken]
  rw [taken]
  generalize ended : (processor.dequeue choice).admin graph config choice.entry choice.gap = final
  have turn := admin_cases graph config (processor.dequeue choice) choice.entry choice.gap
  rw [ended] at turn
  cases turn with
  | serialise type bound =>
      have interval := serialiseInterval_nonneg positive
      have behind := timed.serialised _ dequeued.member type
      refine timed.pushed positive dequeued rfl clock le_rfl (Nat.le_succ _)
        (fun entry member => ?_) (fun entry member kind => ?_) fun entry member _ => ?_
      · rw [List.mem_singleton.mp member]
        simp only [generateAdminEventType, Entry.new, dequeue, Nat.cast_add, Nat.cast_one]
        linarith
      · rw [List.mem_singleton.mp member] at kind
        exact absurd kind (by decide : serialiseArrivalEvent ≠ logGraphEvent)
      · rw [List.mem_singleton.mp member]
        exact le_rfl
  | generate type =>
      refine timed.plain positive dequeued rfl clock rfl rfl (fun entry member => ?_)
        fun entry member => ?_
      · obtain ⟨vertex, _, rfl⟩ := List.mem_map.mp member
        have nonneg := (choice.gap vertex).coe_nonneg
        simp only [generateArrival, Entry.new]
        linarith
      · obtain ⟨vertex, _, rfl⟩ := List.mem_map.mp member
        exact (by decide : lastArrivalEvent < logGraphEvent)
  | log type =>
      exact timed.pushed positive dequeued (List.append_nil _).symm clock (Nat.le_succ _) le_rfl
        (by simp) (by simp) (by simp)
  | logAgain type =>
      have interval := logGraphInterval_nonneg positive
      have behind := timed.logged _ dequeued.member type
      refine timed.pushed positive dequeued rfl clock (Nat.le_succ _) le_rfl
        (fun entry member => ?_) (fun entry member _ => ?_) fun entry member kind => ?_
      · rw [List.mem_singleton.mp member]
        simp only [generateAdminEventType, Entry.new, dequeue, Nat.cast_add, Nat.cast_one]
        linarith
      · rw [List.mem_singleton.mp member]
        exact le_rfl
      · rw [List.mem_singleton.mp member] at kind
        exact absurd kind (by decide : logGraphEvent ≠ serialiseArrivalEvent)
  | observe type =>
      refine timed.pushed positive dequeued rfl clock le_rfl le_rfl
        (fun entry member => ?_) (fun entry member kind => ?_) fun entry member kind => ?_
      · rw [List.mem_singleton.mp member]
        have nonneg : (0 : ℚ) ≤ config.systemStatsInterval := Nat.cast_nonneg _
        simp only [generateAdminEventType, Entry.new]
        linarith
      · rw [List.mem_singleton.mp member] at kind
        exact absurd kind (by decide : systemStatisticsEvent ≠ logGraphEvent)
      · rw [List.mem_singleton.mp member] at kind
        exact absurd kind (by decide : systemStatisticsEvent ≠ serialiseArrivalEvent)
  | idle =>
      exact timed.pushed positive dequeued (List.append_nil _).symm clock le_rfl le_rfl
        (by simp) (by simp) (by simp)

theorem Consistent.arrived_future (consistent : Consistent config processor)
    (dequeued : Dequeued processor choice) :
    choice.entry.arrival ≤ (processor.arrived choice.entry choice).2.arrival := by
  have nonneg := choice.serviceTime.coe_nonneg
  unfold arrived
  rw [arrivalHandler_arrival, arrivalHandler_timeServiceEnds, numEventsHandler_busy,
    numEventsHandler_timeServiceEnds]
  split
  · rename_i busy
    linarith [consistent.arrival_le_ends dequeued busy]
  · linarith

theorem Consistent.timed_step (consistent : Consistent config processor)
    (dequeued : Dequeued processor choice) (turn : Turn graph config processor choice next)
    (positive : 0 ≤ config.stopTime) : Timed config next := by
  have timed := consistent.timed positive
  have taken := take_eq (timed.future _ dequeued.member)
  have clock : (processor.take choice.entry).arrival = choice.entry.arrival := by rw [taken]
  have putBack (stopped undefined : Bool) : Timed config
      { processor.dequeue choice with
        pending := processor.take choice.entry :: processor.pending.erase choice.entry
        stopped := stopped
        undefined := undefined } := by
    have member (entry : Entry)
        (inside : entry ∈ processor.take choice.entry :: processor.pending.erase choice.entry) :
        entry ∈ processor.pending := by
      rw [taken] at inside
      rcases List.mem_cons.mp inside with rfl | old
      · exact dequeued.member
      · exact erase_subset old
    constructor
    · intro entry inside
      simp only [dequeue, clock]
      exact dequeued.earliest entry (member entry inside)
    · exact fun entry inside => timed.logged entry (member entry inside)
    · exact fun entry inside => timed.serialised entry (member entry inside)
  cases turn with
  | admin origin => exact timed.admin_step positive dequeued
  | stop origin late => exact putBack true processor.undefined
  | «break» origin inTime type empty => exact putBack processor.stopped true
  | arrival origin inTime type =>
      refine timed.plain positive dequeued rfl clock rfl rfl (fun entry member => ?_)
        fun entry member => ?_
      · rcases List.mem_append.mp member with generated | scheduled
        · rw [(mem_generated processor _ generated).2, taken]
          have nonneg := (choice.gap choice.entry.destination).coe_nonneg
          simp only [generateArrivalsHandler, generateArrival, Entry.new]
          linarith
        · rw [List.mem_singleton.mp scheduled, taken]
          exact consistent.arrived_future dequeued
      · rcases List.mem_append.mp member with generated | scheduled
        · rw [(mem_generated processor _ generated).2]
          exact (by decide : lastArrivalEvent < logGraphEvent)
        · rw [List.mem_singleton.mp scheduled, arrived_type]
          decide
  | departure origin inTime type =>
      refine timed.plain positive dequeued rfl clock rfl rfl (fun entry member => ?_)
        fun entry member => ?_
      · rw [List.mem_singleton.mp member, departed, departureHandler_arrival, clock]
      · rw [List.mem_singleton.mp member, departed]
        rcases departureHandler_type graph
          (processor.servers (processor.take choice.entry).destination) processor.uid
          (processor.take choice.entry) choice.selected with type | type <;>
        · rw [type]
          decide
  | ack origin inTime type pushed answered =>
      refine timed.plain positive dequeued rfl clock rfl rfl (fun entry member => ?_)
        fun entry member => ?_
      · rw [(ackHandler_pushed answered member).1, clock]
      · have types := (ackHandler_pushed answered member).2
        simp only [List.mem_cons, List.not_mem_nil, or_false] at types
        rcases types with type | type | type <;>
        · rw [type]
          decide
  | other origin inTime type =>
      exact timed.plain positive dequeued rfl clock rfl rfl (by simp) (by simp)

/-! Whole runs. -/

theorem Turn.oldTime_eq (turn : Turn graph config processor choice next) :
    next.oldTime = (processor.take choice.entry).arrival := by
  cases turn with
  | admin origin =>
      obtain ⟨_, effect⟩ := admin_effect (admin_cases graph config
        (processor.dequeue choice) (processor.take choice.entry) choice.gap)
      exact effect.oldTime
  | stop => rfl
  | «break» => rfl
  | arrival => rfl
  | departure => rfl
  | ack => rfl
  | other => rfl

theorem start_consistent (config : Config) : Consistent config (start config) := by
  have placed : ∀ entry ∈ (start config).pending, Placed entry := by
    intro entry member
    obtain ⟨uid, type, _, kind, rfl⟩ := start_pending member
    exact (Announced.admin 0 type kind).placed
  have zero : ∀ entry ∈ (start config).pending, entry.arrival = 0 := by
    intro entry member
    obtain ⟨uid, type, _, kind, rfl⟩ := start_pending member
    rfl
  constructor
  · exact le_rfl
  · intro positive
    constructor
    · exact fun entry member => (zero entry member).ge
    · intro entry member _
      simp [zero entry member, start]
    · intro entry member _
      simp [zero entry member, start]
  · exact placed
  · intro vertex
    rw [departures_none]
    · exact Served.fresh
    · intro entry member leaves
      obtain ⟨uid, type, _, kind, rfl⟩ := start_pending member
      have same : type = departureEvent := leaves.1
      rw [same] at kind
      exact absurd kind (by decide)

theorem Consistent.step (consistent : Consistent config processor)
    (stepped : Processor.step graph config processor choice = some next) :
    Consistent config next := by
  obtain ⟨dequeued, turn⟩ := step_cases stepped
  exact {
    clock := turn.oldTime_eq ▸ consistent.clock_step choice
    timed := consistent.timed_step dequeued turn
    placed := consistent.placed_step dequeued turn
    served := consistent.served_step dequeued turn }

theorem run_consistent {choices : List Choice} {final : Processor}
    (ran : Runs.run (step graph config) (start config) choices = some final) :
    Consistent config final :=
  Runs.run_invariant _ (fun _ _ _ consistent stepped => consistent.step stepped)
    (start_consistent config) ran

theorem run_keeps {motive : Processor → Prop} (first : motive (start config))
    (keeps : ∀ processor choice next, Consistent config processor → motive processor →
      step graph config processor choice = some next → motive next)
    {choices : List Choice} {final : Processor}
    (ran : Runs.run (step graph config) (start config) choices = some final) :
    motive final := by
  have both := Runs.run_invariant (fun state => Consistent config state ∧ motive state)
    (fun state choice next before stepped =>
      ⟨before.1.step stepped, keeps state choice next before.1 before.2 stepped⟩)
    ⟨start_consistent config, first⟩ ran
  exact both.2

def lone : Graph := Graph.point

def twoArrivals : List Choice :=
  [⟨generateAdminEventType 0 0 generateArrivalEvent, 0, fun _ => 1, 0⟩,
    ⟨generateArrival 1 0 0 1, 5, fun _ => 1, 0⟩,
    ⟨generateArrival 2 0 1 1, (2 : Nat), fun _ => 1, 0⟩]

theorem twoArrivals_run :
    ∃ final, Runs.run (step lone { stopTime := 10 }) (start { stopTime := 10 })
      twoArrivals = some final :=
  Option.isSome_iff_exists.mp (by decide +kernel)

end Processor

end RlAqs
