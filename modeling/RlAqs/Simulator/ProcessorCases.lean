import RlAqs.Simulator.HandlersChecks
import RlAqs.Simulator.ProcessorCore
import Mathlib.Tactic.Linarith
import Mathlib.Tactic.NormNum

/-!
What a turn of the event loop does, case by case. Every invariant of the processor is
proved from these cases, without unfolding the loop again.
-/

namespace RlAqs

namespace Processor

open Handlers EventGenerator

variable {graph : Graph} {config : Config} {processor next : Processor} {choice : Choice}

structure Dequeued (processor : Processor) (choice : Choice) : Prop where
  running : processor.stopped = false
  defined : processor.undefined = false
  member : choice.entry ∈ processor.pending
  earliest : ∀ other ∈ processor.pending, choice.entry.arrival ≤ other.arrival

def dequeue (processor : Processor) (choice : Choice) : Processor :=
  { processor with
    pending := processor.pending.erase choice.entry
    oldTime := (processor.take choice.entry).arrival }

theorem dequeue_counter (processor : Processor) (choice : Choice) :
    (processor.dequeue choice).counter = processor.counter := rfl

def handled (processor : Processor) (choice : Choice) (servers : Int → Server)
    (pushed : List Entry) : Processor :=
  { processor with
    servers := servers
    pending := processor.pending.erase choice.entry ++ pushed
    uid := processor.uid + pushed.length
    oldTime := (processor.take choice.entry).arrival
    processed :=
      ⟨processor.take choice.entry, choice.serviceTime, pushed⟩ :: processor.processed }

/-- What an arrival at the stop of its predecessor or from outside pushes first. -/
def generated (processor : Processor) (entry : Entry) (gap : Int → ℚ≥0) : List Entry :=
  if entry.type = lastArrivalEvent then
    [generateArrivalsHandler processor.uid entry (gap entry.destination)]
  else []

def arrived (processor : Processor) (entry : Entry) (choice : Choice) : Server × Entry :=
  arrivalHandler (numEventsHandler (processor.servers entry.destination) entry)
    (processor.uid + (processor.generated entry choice.gap).length) entry choice.serviceTime

def departed (graph : Graph) (processor : Processor) (entry : Entry) (choice : Choice) :
    Server × Entry :=
  departureHandler graph (processor.servers entry.destination) processor.uid entry
    choice.selected

theorem erase_subset {entry : Entry}
    (member : entry ∈ processor.pending.erase choice.entry) : entry ∈ processor.pending :=
  List.mem_of_mem_erase member

inductive Turn (graph : Graph) (config : Config) (processor : Processor) (choice : Choice) :
    Processor → Prop
  | admin (origin : (processor.take choice.entry).origin = adminEvent) :
      Turn graph config processor choice
        ((processor.dequeue choice).admin graph config (processor.take choice.entry) choice.gap)
  | stop (origin : (processor.take choice.entry).origin ≠ adminEvent)
      (late : config.stopTime < (processor.take choice.entry).arrival) :
      Turn graph config processor choice
        { processor.dequeue choice with
          pending := processor.take choice.entry :: processor.pending.erase choice.entry
          stopped := true }
  | break (origin : (processor.take choice.entry).origin ≠ adminEvent)
      (inTime : (processor.take choice.entry).arrival ≤ config.stopTime)
      (type : (processor.take choice.entry).type = ackEvent ∨
        (processor.take choice.entry).type = ack1hopEvent)
      (empty : responseHandler (processor.take choice.entry) = none ∨
        ackHandler graph config processor.uid (processor.take choice.entry) = none) :
      Turn graph config processor choice
        { processor.dequeue choice with
          pending := processor.take choice.entry :: processor.pending.erase choice.entry
          undefined := true }
  | arrival (origin : (processor.take choice.entry).origin ≠ adminEvent)
      (inTime : (processor.take choice.entry).arrival ≤ config.stopTime)
      (type : (processor.take choice.entry).type = lastArrivalEvent ∨
        (processor.take choice.entry).type = arrivalEvent) :
      Turn graph config processor choice
        (processor.handled choice
          (Function.update processor.servers (processor.take choice.entry).destination
            (processor.arrived (processor.take choice.entry) choice).1)
          (processor.generated (processor.take choice.entry) choice.gap ++
            [(processor.arrived (processor.take choice.entry) choice).2]))
  | departure (origin : (processor.take choice.entry).origin ≠ adminEvent)
      (inTime : (processor.take choice.entry).arrival ≤ config.stopTime)
      (type : (processor.take choice.entry).type = departureEvent) :
      Turn graph config processor choice
        (processor.handled choice
          (Function.update processor.servers (processor.take choice.entry).destination
            (processor.departed graph (processor.take choice.entry) choice).1)
          [(processor.departed graph (processor.take choice.entry) choice).2])
  | ack (origin : (processor.take choice.entry).origin ≠ adminEvent)
      (inTime : (processor.take choice.entry).arrival ≤ config.stopTime)
      (type : (processor.take choice.entry).type = ackEvent ∨
        (processor.take choice.entry).type = ack1hopEvent)
      (pushed : List Entry)
      (answered : ackHandler graph config processor.uid (processor.take choice.entry) =
        some pushed) :
      Turn graph config processor choice (processor.handled choice processor.servers pushed)
  | other (origin : (processor.take choice.entry).origin ≠ adminEvent)
      (inTime : (processor.take choice.entry).arrival ≤ config.stopTime)
      (type : (processor.take choice.entry).type ∉
        [lastArrivalEvent, arrivalEvent, departureEvent, ackEvent, ack1hopEvent]) :
      Turn graph config processor choice (processor.handled choice processor.servers [])

theorem step_cases (stepped : step graph config processor choice = some next) :
    Dequeued processor choice ∧ Turn graph config processor choice next := by
  unfold step at stepped
  split at stepped
  · cases stepped
  rename_i going
  split at stepped
  case isFalse => cases stepped
  rename_i taken
  simp only [not_or, Bool.not_eq_true] at going
  refine ⟨⟨going.1, going.2, taken.1, taken.2⟩, ?_⟩
  dsimp only at stepped
  split at stepped
  · rename_i origin
    rw [← Option.some.inj stepped]
    exact .admin origin
  rename_i origin
  split at stepped
  · rename_i late
    rw [← Option.some.inj stepped]
    exact .stop origin late
  rename_i inTime
  have inTime := not_lt.mp inTime
  unfold handle at stepped
  dsimp only at stepped
  split at stepped
  case h_1 empty =>
    rw [← Option.some.inj stepped]
    split at empty
    · cases empty
    split at empty
    · cases empty
    split at empty
    case isFalse => cases empty
    rename_i type
    refine .break origin inTime type ?_
    cases reward : responseHandler (processor.take choice.entry) with
    | none => exact .inl rfl
    | some _ => simpa [reward] using empty
  case h_2 servers pushed answer =>
    rw [← Option.some.inj stepped]
    split at answer
    · rename_i type
      cases answer
      exact .arrival origin inTime type
    rename_i noArrival
    split at answer
    · rename_i type
      cases answer
      exact .departure origin inTime type
    rename_i noDeparture
    split at answer
    · rename_i type
      simp only [Option.bind_eq_some_iff, Option.map_eq_some_iff, Prod.mk.injEq] at answer
      obtain ⟨_, _, _, answered, rfl, rfl⟩ := answer
      exact .ack origin inTime type _ answered
    · rename_i noAck
      cases answer
      refine .other origin inTime ?_
      simp only [List.mem_cons, List.not_mem_nil, or_false]
      tauto

theorem inTime_of_going (stepped : step graph config processor choice = some next)
    (plain : (processor.take choice.entry).origin ≠ adminEvent) (going : next.stopped = false) :
    (processor.take choice.entry).arrival ≤ config.stopTime := by
  obtain ⟨_, turn⟩ := step_cases stepped
  cases turn with
  | admin origin => exact absurd origin plain
  | stop origin late => cases going
  | «break» origin inTime => exact inTime
  | arrival origin inTime => exact inTime
  | departure origin inTime => exact inTime
  | ack origin inTime => exact inTime
  | other origin inTime => exact inTime

/-! The admin handlers: each acts on the events of its own type. -/

inductive AdminTurn (graph : Graph) (config : Config) (processor : Processor) (entry : Entry)
    (gap : Int → ℚ≥0) : Processor → Prop
  | serialise (type : entry.type = serialiseArrivalEvent)
      (bound : processor.currentTimeStep < config.mfrwT) :
      AdminTurn graph config processor entry gap
        ({ processor with currentTimeStep := processor.currentTimeStep + 1 }.push
          [generateAdminEventType processor.uid
            (serialiseInterval config * (processor.currentTimeStep + 1 : ℕ))
            serialiseArrivalEvent])
  | generate (type : entry.type = generateArrivalEvent) :
      AdminTurn graph config processor entry gap
        (processor.push ((List.range graph.size).map fun vertex =>
          generateArrival (processor.uid + vertex) vertex entry.arrival (gap vertex)))
  | log (type : entry.type = logGraphEvent) :
      AdminTurn graph config processor entry gap
        { processor with counter := processor.counter + 1 }
  | logAgain (type : entry.type = logGraphEvent) :
      AdminTurn graph config processor entry gap
        ({ processor with counter := processor.counter + 1 }.push
          [generateAdminEventType processor.uid
            ((processor.counter + 1 : ℕ) * logGraphInterval config) logGraphEvent])
  | observe (type : entry.type = systemStatisticsEvent) :
      AdminTurn graph config processor entry gap
        (processor.push [generateAdminEventType processor.uid
          (entry.arrival + config.systemStatsInterval) systemStatisticsEvent])
  | idle : AdminTurn graph config processor entry gap processor

@[simp] theorem push_nil (processor : Processor) : processor.push [] = processor := by
  simp [push]

theorem admin_log {entry : Entry} (type : entry.type = logGraphEvent) (gap : Int → ℚ≥0) :
    processor.admin graph config entry gap =
      { processor with counter := processor.counter + 1 }.push
        (if ((processor.counter + 1 : ℕ) : ℚ) * logGraphInterval config ≤ config.stopTime then
          [generateAdminEventType processor.uid
            ((processor.counter + 1 : ℕ) * logGraphInterval config) logGraphEvent]
        else []) := by
  simp [admin, serialiseArrivalsHandler, generateArrivalsAdminHandler, logGraphHandler,
    rollingSystemStatsAdminHandler, type]

theorem admin_cases (graph : Graph) (config : Config) (processor : Processor) (entry : Entry)
    (gap : Int → ℚ≥0) :
    AdminTurn graph config processor entry gap
      (processor.admin graph config entry gap) := by
  have unmoved : AdminTurn graph config processor entry gap processor := .idle
  by_cases serialises : entry.type = serialiseArrivalEvent
  · by_cases bound : processor.currentTimeStep < config.mfrwT
    · have turn : AdminTurn graph config processor entry gap _ := .serialise serialises bound
      simpa [admin, serialiseArrivalsHandler, generateArrivalsAdminHandler, logGraphHandler,
        rollingSystemStatsAdminHandler, serialises, bound] using turn
    · simpa [admin, serialiseArrivalsHandler, generateArrivalsAdminHandler, logGraphHandler,
        rollingSystemStatsAdminHandler, serialises, bound] using unmoved
  by_cases generates : entry.type = generateArrivalEvent
  · have turn : AdminTurn graph config processor entry gap _ := .generate generates
    simpa [admin, serialiseArrivalsHandler, generateArrivalsAdminHandler, logGraphHandler,
      rollingSystemStatsAdminHandler, generates] using turn
  by_cases logs : entry.type = logGraphEvent
  · have turn : AdminTurn graph config processor entry gap _ := .log logs
    have turnAgain : AdminTurn graph config processor entry gap _ := .logAgain logs
    by_cases again :
        ((processor.counter : ℚ) + 1) * logGraphInterval config ≤ config.stopTime
    · simpa [admin, serialiseArrivalsHandler, generateArrivalsAdminHandler, logGraphHandler,
        rollingSystemStatsAdminHandler, logs, again] using turnAgain
    · simpa [admin, serialiseArrivalsHandler, generateArrivalsAdminHandler, logGraphHandler,
        rollingSystemStatsAdminHandler, logs, again] using turn
  by_cases observes : config.systemStatsSteps > 0 ∧ entry.type = systemStatisticsEvent
  · by_cases again : entry.arrival + config.systemStatsInterval ≤ config.stopTime
    · have turn : AdminTurn graph config processor entry gap _ := .observe observes.2
      simpa [admin, serialiseArrivalsHandler, generateArrivalsAdminHandler, logGraphHandler,
        rollingSystemStatsAdminHandler, observes, again] using turn
    · simpa [admin, serialiseArrivalsHandler, generateArrivalsAdminHandler, logGraphHandler,
        rollingSystemStatsAdminHandler, observes, again] using unmoved
  · simpa [admin, serialiseArrivalsHandler, generateArrivalsAdminHandler, logGraphHandler,
      rollingSystemStatsAdminHandler, serialises, generates, logs, observes] using unmoved

/-- An entry constructed when the counter was at `uid`: an admin event or an external
arrival. -/
inductive Announced (uid : Nat) : Entry → Prop
  | admin (time : ℚ) (type : Int) (kind : logGraphEvent ≤ type) :
      Announced uid (generateAdminEventType uid time type)
  | arrival (vertex : Nat) (startTime : ℚ) (gap : ℚ≥0) :
      Announced uid (generateArrival uid vertex startTime gap)

structure AdminEffect (processor next : Processor) (pushed : List Entry) : Prop where
  servers : next.servers = processor.servers
  pending : next.pending = processor.pending ++ pushed
  uid : next.uid = processor.uid + pushed.length
  oldTime : next.oldTime = processor.oldTime
  processed : next.processed = processor.processed
  undefined : next.undefined = processor.undefined
  announced : ∀ index, (bound : index < pushed.length) →
    Announced (processor.uid + index) pushed[index]

theorem admin_effect {entry : Entry} {gap : Int → ℚ≥0}
    (turn : AdminTurn graph config processor entry gap next) :
    ∃ pushed, AdminEffect processor next pushed := by
  have single (before : Processor) (time : ℚ) (type : Int) (kind : logGraphEvent ≤ type)
      (index : Nat) (bound : index < [generateAdminEventType before.uid time type].length) :
      Announced (before.uid + index) [generateAdminEventType before.uid time type][index] := by
    obtain rfl : index = 0 := by simpa using bound
    exact .admin time type kind
  cases turn with
  | serialise type bound =>
      exact ⟨_, rfl, rfl, rfl, rfl, rfl, rfl, single processor _ _ (by decide)⟩
  | generate type =>
      refine ⟨_, rfl, rfl, rfl, rfl, rfl, rfl, fun index bound => ?_⟩
      simp only [List.getElem_map, List.getElem_range]
      exact .arrival index _ _
  | log type =>
      exact ⟨[], rfl, (List.append_nil _).symm, rfl, rfl, rfl, rfl, by simp⟩
  | logAgain type =>
      exact ⟨_, rfl, rfl, rfl, rfl, rfl, rfl, single processor _ _ (by decide)⟩
  | observe type =>
      exact ⟨_, rfl, rfl, rfl, rfl, rfl, rfl, single processor _ _ (by decide)⟩
  | idle =>
      exact ⟨[], rfl, (List.append_nil _).symm, rfl, rfl, rfl, rfl, by simp⟩

theorem Announced.kind {uid : Nat} {entry : Entry} (announced : Announced uid entry) :
    entry.type = lastArrivalEvent ∨ logGraphEvent ≤ entry.type := by
  cases announced with
  | admin time type kind => exact .inr kind
  | arrival vertex startTime gap => exact .inl rfl

theorem AdminEffect.kind {pushed : List Entry} (effect : AdminEffect processor next pushed)
    {entry : Entry} (member : entry ∈ pushed) :
    entry.type = lastArrivalEvent ∨ logGraphEvent ≤ entry.type := by
  obtain ⟨index, bound, rfl⟩ := List.getElem_of_mem member
  exact (effect.announced index bound).kind

/-! The event in hand differs from the one in the queue by its time only. -/

section take

variable (processor : Processor) (entry : Entry)

@[simp] theorem take_type : (processor.take entry).type = entry.type := by
  unfold take; split <;> rfl

@[simp] theorem take_origin : (processor.take entry).origin = entry.origin := by
  unfold take; split <;> rfl

@[simp] theorem take_destination :
    (processor.take entry).destination = entry.destination := by
  unfold take; split <;> rfl

@[simp] theorem take_id : (processor.take entry).id = entry.id := by
  unfold take; split <;> rfl

@[simp] theorem take_eventPath : (processor.take entry).eventPath = entry.eventPath := by
  unfold take; split <;> rfl

@[simp] theorem take_eventArrivals :
    (processor.take entry).eventArrivals = entry.eventArrivals := by
  unfold take; split <;> rfl

theorem epsilon_pos : 0 < epsilon := by norm_num [epsilon]

theorem take_eq {processor : Processor} {entry : Entry} (future : processor.oldTime ≤ entry.arrival) :
    processor.take entry = entry := by
  unfold take
  exact if_neg (not_lt.mpr future)

theorem oldTime_le_take : processor.oldTime ≤ (processor.take entry).arrival := by
  unfold take
  split
  · simp only [Entry.setArrival]
    linarith [epsilon_pos]
  · rename_i future
    exact not_lt.mp future

theorem arrival_le_take : entry.arrival ≤ (processor.take entry).arrival := by
  unfold take
  split
  · rename_i past
    simp only [Entry.setArrival]
    linarith [epsilon_pos]
  · exact le_refl _

end take

/-! The entries pushed for an arrival. -/

section pushes

variable (processor : Processor) (entry : Entry) (choice : Choice)

theorem mem_generated {new : Entry} {gap : Int → ℚ≥0}
    (member : new ∈ processor.generated entry gap) :
    entry.type = lastArrivalEvent ∧
      new = generateArrivalsHandler processor.uid entry (gap entry.destination) := by
  unfold generated at member
  split at member
  · rename_i type
    exact ⟨type, List.mem_singleton.mp member⟩
  · cases member

@[simp] theorem arrived_type :
    (processor.arrived entry choice).2.type = departureEvent := arrivalHandler_type ..

@[simp] theorem arrived_destination :
    (processor.arrived entry choice).2.destination = entry.destination :=
  arrivalHandler_destination ..

@[simp] theorem arrived_origin :
    (processor.arrived entry choice).2.origin = entry.destination := arrivalHandler_origin ..

@[simp] theorem arrived_id : (processor.arrived entry choice).2.id = entry.id :=
  arrivalHandler_id ..

end pushes

theorem start_pending {entry : Entry} (member : entry ∈ (start config).pending) :
    ∃ uid type, uid < (start config).uid ∧ logGraphEvent ≤ type ∧
      entry = generateAdminEventType uid 0 type := by
  have kinds : ∀ type ∈ initialTypes config, logGraphEvent ≤ type := by
    intro type listed
    unfold initialTypes at listed
    simp only [List.mem_append, List.mem_ite_nil_right, List.mem_singleton] at listed
    rcases listed with ((⟨_, rfl⟩ | rfl) | ⟨_, rfl⟩) | ⟨_, rfl⟩ <;> decide
  simp only [start, List.mem_mapIdx] at member
  obtain ⟨index, bound, rfl⟩ := member
  exact ⟨index, _, bound, kinds _ (List.getElem_mem bound), rfl⟩

end Processor

end RlAqs
