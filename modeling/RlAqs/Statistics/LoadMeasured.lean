import RlAqs.Library.Timeline
import RlAqs.Statistics.LoadServed

/-!
The two sums over time that a vertex keeps, against the integrals of the waiting count and of
the busy server over the run. The busy time is exact. The sum of the waiting counts is the
integral, but for the services at the end of which no one waits.
-/

namespace RlAqs

open Handlers Processor

variable {graph : Graph} {config : Config} {vertex : Int} {choice : Choice} {choices : List Choice}

theorem step_oldTime {processor after : Processor}
    (stepped : Processor.step graph config processor choice = some after) :
    after.oldTime = (processor.take choice.entry).arrival :=
  (Processor.step_cases stepped).2.oldTime_eq

/-! The time of the last event of a vertex. -/

section LastEvent

variable {state next : Processor × Monitor}

theorem served_lastEventTime (stepped : Monitor.step graph config state choice = some next)
    (serves : Serves config vertex state.1 choice) :
    (next.2.vertices vertex).lastEventTime = next.1.oldTime := by
  rw [turn_served stepped serves, lastEventHandler, if_pos serves.2.2.1,
    step_oldTime (Monitor.step_cases stepped).1]

theorem lastEventTime_le (stepped : Monitor.step graph config state choice = some next)
    (order : (state.2.vertices vertex).lastEventTime ≤ state.1.oldTime) :
    (next.2.vertices vertex).lastEventTime ≤ next.1.oldTime := by
  by_cases serves : Serves config vertex state.1 choice
  · exact (served_lastEventTime stepped serves).le
  · rw [(turn_unserved stepped serves).1, step_oldTime (Monitor.step_cases stepped).1]
    exact order.trans (oldTime_le_take _ _)

end LastEvent

theorem arrival_ne_departure {entry : Entry}
    (type : entry.type = lastArrivalEvent ∨ entry.type = arrivalEvent) :
    entry.type ≠ departureEvent := by
  rcases type with type | type <;> rw [type] <;> decide

theorem departure_ne_arrival {entry : Entry} (type : entry.type = departureEvent) :
    ¬(entry.type = lastArrivalEvent ∨ entry.type = arrivalEvent) :=
  fun arrives => arrival_ne_departure arrives type

/-! The waiting count. -/

section Waiting

variable {initial : SystemStatistics} {state next before final : Processor × Monitor}

def queueLengths (graph : Graph) (config : Config) (initial : SystemStatistics) (vertex : Int)
    (choices : List Choice) : List (ℚ × ℚ) :=
  (Runs.states (Monitor.step graph config) (Processor.start config, Monitor.start initial)
    choices).map fun state =>
      (state.1.oldTime, ((state.1.servers vertex).numberInQueue : ℚ))

/-- A departure that finds no one waiting comes at the time of the last event of its vertex. -/
def Timely (config : Config) (vertex : Int) (state : Processor × Monitor) (choice : Choice) :
    Prop :=
  Serves config vertex state.1 choice → choice.entry.type = departureEvent →
    (state.1.servers vertex).numberInQueue = 0 →
      (state.1.take choice.entry).arrival = (state.2.vertices vertex).lastEventTime

theorem arrival_qdt {server after : Server} {statistics : VertexStatistics} {entry : Entry}
    (type : entry.type = lastArrivalEvent ∨ entry.type = arrivalEvent)
    (order : statistics.lastEventTime ≤ entry.arrival) (nonneg : 0 ≤ server.numberInQueue)
    (waiting : 0 < server.numberInQueue → server.busy = true)
    (queue : after.numberInQueue = server.numberInQueue + if server.busy then 1 else 0) :
    (expectedAverageEventInQueueHandler after statistics entry).qdt =
      statistics.qdt + server.numberInQueue * (entry.arrival - statistics.lastEventTime) := by
  have event : servesEvent entry := type.imp_right .inl
  have diff : 0 ≤ entry.arrival - statistics.lastEventTime := sub_nonneg.mpr order
  simp only [expectedAverageEventInQueueHandler, if_pos event, if_pos type]
  cases busy : server.busy with
  | true =>
      rw [busy] at queue
      have more : 0 < after.numberInQueue := by
        rw [queue]
        simp only [if_true]
        omega
      rw [if_pos ⟨more, diff⟩]
      simp only [queue, if_true]
      push_cast
      ring
  | false =>
      rw [busy] at queue
      have none : server.numberInQueue = 0 := by
        rcases nonneg.eq_or_lt with empty | some_waiting
        · exact empty.symm
        · rw [waiting some_waiting] at busy
          cases busy
      have same : after.numberInQueue = 0 := by
        rw [queue, none]
        rfl
      simp [same, none]

theorem departure_qdt {after : Server} {statistics : VertexStatistics} {entry : Entry}
    (type : entry.type = departureEvent) (order : statistics.lastEventTime ≤ entry.arrival) :
    (expectedAverageEventInQueueHandler after statistics entry).qdt = statistics.qdt +
      ((after.numberInQueue : ℚ) + 1) * (entry.arrival - statistics.lastEventTime) := by
  have event : servesEvent entry := .inr (.inr type)
  have diff : 0 ≤ entry.arrival - statistics.lastEventTime := sub_nonneg.mpr order
  simp only [expectedAverageEventInQueueHandler, if_pos event, if_neg (departure_ne_arrival type)]
  rw [if_pos diff]
  ring

theorem expected_eq {server : Server} {statistics : VertexStatistics} {entry : Entry}
    (event : servesEvent entry) :
    (expectedAverageEventInQueueHandler server statistics entry).expectedAverageNumberEvent =
      divide (expectedAverageEventInQueueHandler server statistics entry).qdt entry.arrival := by
  simp only [expectedAverageEventInQueueHandler, if_pos event]

theorem served_qdt (consistent : Consistent config state.1)
    (order : (state.2.vertices vertex).lastEventTime ≤ state.1.oldTime)
    (stepped : Monitor.step graph config state choice = some next)
    (serves : Serves config vertex state.1 choice) :
    ∃ extra, 0 ≤ extra ∧ (extra = 0 ↔ Timely config vertex state choice) ∧
      (next.2.vertices vertex).qdt = (state.2.vertices vertex).qdt +
        (state.1.servers vertex).numberInQueue *
          ((state.1.take choice.entry).arrival - (state.2.vertices vertex).lastEventTime) +
        extra := by
  have later : (state.2.vertices vertex).lastEventTime ≤ (state.1.take choice.entry).arrival :=
    order.trans (oldTime_le_take _ _)
  have same : (next.2.vertices vertex).qdt =
      (expectedAverageEventInQueueHandler (next.1.servers vertex) (state.2.vertices vertex)
        (state.1.take choice.entry)).qdt := by
    rw [turn_served stepped serves, lastEventHandler, if_pos serves.2.2.1]
  rw [same]
  have served := consistent.served vertex
  cases serverTurn_cases consistent (Monitor.step_cases stepped).1 vertex with
  | unserved other => exact absurd serves other
  | arrival _ type busy queue =>
      refine ⟨0, le_rfl, iff_of_true rfl ?_, ?_⟩
      · intro _ departs
        rw [take_type] at type
        exact absurd departs (arrival_ne_departure type)
      · rw [add_zero]
        exact arrival_qdt type later served.nonneg served.waiting queue
  | last _ type busy empty idle queue =>
      refine ⟨(state.1.take choice.entry).arrival - (state.2.vertices vertex).lastEventTime,
        sub_nonneg.mpr later, ?_, ?_⟩
      · rw [sub_eq_zero]
        rw [take_type] at type
        exact ⟨fun timely _ _ _ => timely, fun timely => timely serves type empty⟩
      · rw [departure_qdt type later, queue, empty]
        simp
  | next _ type busy waiting still queue =>
      refine ⟨0, le_rfl, iff_of_true rfl ?_, ?_⟩
      · intro _ _ empty
        omega
      · rw [departure_qdt type later, queue]
        push_cast
        ring

/-- The sum is up to date at the last event of the vertex, but for an excess. -/
structure QueueMeasured (graph : Graph) (config : Config) (initial : SystemStatistics)
    (vertex : Int) (choices : List Choice) (state : Processor × Monitor) (excess : ℚ) : Prop where
  consistent : Consistent config state.1
  order : (state.2.vertices vertex).lastEventTime ≤ state.1.oldTime
  settled : ∃ earlier,
    queueLengths graph config initial vertex choices =
      (state.1.oldTime, ((state.1.servers vertex).numberInQueue : ℚ)) :: earlier ∧
    Timeline.Settled state.1.oldTime ((state.1.servers vertex).numberInQueue : ℚ) earlier
      (state.2.vertices vertex).lastEventTime (state.2.vertices vertex).qdt excess
  positive : 0 ≤ excess
  exact : excess = 0 ↔ Runs.Along (Monitor.step graph config) (Timely config vertex)
    (Processor.start config, Monitor.start initial) choices

theorem start_queueMeasured : QueueMeasured graph config initial vertex []
    (Processor.start config, Monitor.start initial) 0 where
  consistent := start_consistent config
  order := le_rfl
  settled := ⟨[], rfl, ⟨by
    simp [Processor.start, Server.fresh, Monitor.start, VertexStatistics.fresh,
      Timeline.integral]⟩⟩
  positive := le_rfl
  exact := iff_of_true rfl trivial

theorem QueueMeasured.step {excess : ℚ}
    (measured : QueueMeasured graph config initial vertex choices state excess)
    (ran : Runs.run (Monitor.step graph config) (Processor.start config, Monitor.start initial)
      choices = some state)
    (stepped : Monitor.step graph config state choice = some next) :
    ∃ extended, QueueMeasured graph config initial vertex (choices ++ [choice]) next extended := by
  obtain ⟨done, _⟩ := Monitor.step_cases stepped
  obtain ⟨earlier, lengths, settled⟩ := measured.settled
  have clock := step_oldTime done
  have consistent := measured.consistent.step done
  have order := lastEventTime_le stepped measured.order
  have longer : queueLengths graph config initial vertex (choices ++ [choice]) =
      (next.1.oldTime, ((next.1.servers vertex).numberInQueue : ℚ)) ::
        queueLengths graph config initial vertex choices := by
    rw [queueLengths, Runs.states_concat ran stepped, List.map_cons, queueLengths]
  by_cases serves : Serves config vertex state.1 choice
  · obtain ⟨extra, positive, timely, qdt⟩ :=
      served_qdt measured.consistent measured.order stepped serves
    refine ⟨excess + extra, consistent, order, ⟨_, longer, ?_⟩,
      add_nonneg measured.positive positive, ?_⟩
    · rw [lengths, served_lastEventTime stepped serves, qdt, ← clock]
      exact settled.settle _ _ extra
    · rw [Runs.along_concat ran, ← measured.exact, ← timely]
      exact add_eq_zero_iff_of_nonneg measured.positive positive
  · obtain ⟨last, qdt⟩ := turn_unserved stepped serves
    have same := unserved_server measured.consistent done serves
    refine ⟨excess, consistent, order, ⟨_, longer, ?_⟩, measured.positive, ?_⟩
    · rw [lengths, last, qdt, same]
      exact settled.wait _
    · rw [Runs.along_concat ran, measured.exact]
      exact (and_iff_left fun served => absurd served serves).symm

theorem run_queueMeasured
    (ran : Runs.run (Monitor.step graph config) (Processor.start config, Monitor.start initial)
      choices = some final) (vertex : Int) :
    ∃ excess, QueueMeasured graph config initial vertex choices final excess := by
  refine Runs.run_induction (motive := fun choices state =>
    ∃ excess, QueueMeasured graph config initial vertex choices state excess) ?_ ?_ ran
  · exact ⟨0, start_queueMeasured⟩
  · rintro choices before choice after ran ⟨excess, measured⟩ stepped
    exact measured.step ran stepped

/-- After an arrival or a departure of a vertex the sum is the integral of the waiting count, and
the average is the integral over the time, exactly when in the run so far every departure that
found no one waiting came at the time of the event before it. -/
theorem run_qdt_iff
    (ran : Runs.run (Monitor.step graph config) (Processor.start config, Monitor.start initial)
      choices = some before)
    (stepped : Monitor.step graph config before choice = some final)
    (serves : Serves config vertex before.1 choice) :
    let time := (before.1.take choice.entry).arrival
    let area := Timeline.integral (queueLengths graph config initial vertex choices) time
    ((final.2.vertices vertex).qdt = area ∧
        (0 < time →
          (final.2.vertices vertex).expectedAverageNumberEvent = some (area / time))) ↔
      Runs.Along (Monitor.step graph config) (Timely config vertex)
        (Processor.start config, Monitor.start initial) (choices ++ [choice]) := by
  intro time area
  obtain ⟨excess, measured⟩ := run_queueMeasured (Runs.run_concat ran stepped) vertex
  obtain ⟨done, _⟩ := Monitor.step_cases stepped
  have clock := step_oldTime done
  have served := turn_served stepped serves
  have last := served_lastEventTime stepped serves
  have average : (final.2.vertices vertex).expectedAverageNumberEvent =
      divide (final.2.vertices vertex).qdt time := by
    rw [served, lastEventHandler, if_pos serves.2.2.1]
    exact expected_eq serves.2.2.1
  have qdt : (final.2.vertices vertex).qdt = area + excess := by
    obtain ⟨earlier, lengths, settled⟩ := measured.settled
    rw [queueLengths, Runs.states_concat ran stepped, List.map_cons, List.cons.injEq] at lengths
    rw [last] at settled
    rw [settled.sum_eq, ← lengths.2, clock]
    rfl
  rw [← measured.exact]
  constructor
  · rintro ⟨same, _⟩
    linarith
  · intro none
    have same : (final.2.vertices vertex).qdt = area := by rw [qdt, none, add_zero]
    refine ⟨same, fun positive => ?_⟩
    rw [average, same, divide, if_neg positive.ne']

end Waiting

def lonely : Graph := Graph.point

def lonelyConfig : Config := { stopTime := 20 }

def lonelyStart : SystemStatistics := ⟨some 0, some 0, some 0⟩

def oneArrival : List Choice :=
  [⟨EventGenerator.generateAdminEventType 0 0 generateArrivalEvent, 0, fun _ => 1, 0⟩,
    ⟨EventGenerator.generateArrival 1 0 0 1, 4, fun _ => 8, 0⟩]

def itsDeparture : Choice :=
  let job := EventGenerator.generateArrival 1 0 0 1
  ⟨{ job with
      arrival := 5, origin := 0, type := departureEvent
      eventPath := [-1], eventArrivals := [1], gid := 4 }, 0, fun _ => 0, 0⟩

/-- No one ever waits, and yet the sum is 4 in the end. -/
theorem oneArrival_qdt :
    ∃ before final,
      Runs.run (Monitor.step lonely lonelyConfig)
        (Processor.start lonelyConfig, Monitor.start lonelyStart) oneArrival = some before ∧
      Monitor.step lonely lonelyConfig before itsDeparture = some final ∧
      Serves lonelyConfig 0 before.1 itsDeparture ∧ (final.2.vertices 0).qdt = 4 ∧
      Timeline.integral (queueLengths lonely lonelyConfig lonelyStart 0 oneArrival)
        (before.1.take itsDeparture.entry).arrival = 0 := by
  have checked : ∃ before ∈ Runs.run (Monitor.step lonely lonelyConfig)
      (Processor.start lonelyConfig, Monitor.start lonelyStart) oneArrival,
      ∃ final ∈ Monitor.step lonely lonelyConfig before itsDeparture,
        Serves lonelyConfig 0 before.1 itsDeparture ∧ (final.2.vertices 0).qdt = 4 ∧
        Timeline.integral (queueLengths lonely lonelyConfig lonelyStart 0 oneArrival)
          (before.1.take itsDeparture.entry).arrival = 0 := by
    decide +kernel
  obtain ⟨before, ran, final, stepped, rest⟩ := checked
  exact ⟨before, final, ran, stepped, rest⟩

theorem run_qdt_iff_oneArrival :
    ∃ before final,
      Runs.run (Monitor.step lonely lonelyConfig)
        (Processor.start lonelyConfig, Monitor.start lonelyStart) oneArrival = some before ∧
      Monitor.step lonely lonelyConfig before itsDeparture = some final ∧
      (((final.2.vertices 0).qdt = Timeline.integral
            (queueLengths lonely lonelyConfig lonelyStart 0 oneArrival)
            (before.1.take itsDeparture.entry).arrival ∧
          (0 < (before.1.take itsDeparture.entry).arrival →
            (final.2.vertices 0).expectedAverageNumberEvent =
              some (Timeline.integral
                (queueLengths lonely lonelyConfig lonelyStart 0 oneArrival)
                (before.1.take itsDeparture.entry).arrival /
                  (before.1.take itsDeparture.entry).arrival))) ↔
        Runs.Along (Monitor.step lonely lonelyConfig) (Timely lonelyConfig 0)
          (Processor.start lonelyConfig, Monitor.start lonelyStart)
          (oneArrival ++ [itsDeparture])) := by
  obtain ⟨before, final, ran, stepped, serves, _⟩ := oneArrival_qdt
  exact ⟨before, final, ran, stepped, run_qdt_iff ran stepped serves⟩

theorem qdt_overcounted :
    ¬∀ (graph : Graph) (config : Config) (initial : SystemStatistics) (vertex : Int)
      (choices : List Choice) (choice : Choice) (before final : Processor × Monitor),
      Runs.run (Monitor.step graph config) (Processor.start config, Monitor.start initial)
        choices = some before →
      Monitor.step graph config before choice = some final →
      Serves config vertex before.1 choice →
        (final.2.vertices vertex).qdt = Timeline.integral
          (queueLengths graph config initial vertex choices)
          (before.1.take choice.entry).arrival := by
  intro always
  obtain ⟨before, final, ran, stepped, serves, sum, area⟩ := oneArrival_qdt
  have same := always lonely lonelyConfig lonelyStart 0 oneArrival itsDeparture before final ran
    stepped serves
  rw [sum, area] at same
  exact absurd same (by norm_num)

/-! The busy server. -/

section Busy

variable {initial : SystemStatistics} {state next before final : Utilisation.State}

def busyValue (server : Server) : ℚ := if server.busy then 1 else 0

def busyTimes (graph : Graph) (config : Config) (initial : SystemStatistics) (vertex : Int)
    (choices : List Choice) : List (ℚ × ℚ) :=
  (Runs.states (Utilisation.step graph config) (Utilisation.start config initial) choices).map
    fun state => (state.1.1.oldTime, busyValue (state.1.1.servers vertex))

theorem busyTimes_bounds {change : ℚ × ℚ}
    (member : change ∈ busyTimes graph config initial vertex choices) :
    0 ≤ change.2 ∧ change.2 ≤ 1 := by
  obtain ⟨state, _, rfl⟩ := List.mem_map.mp member
  unfold busyValue
  split <;> simp

/-- A server is busy before a departure, and before an arrival at which it then holds a queue. -/
theorem served_bdt (consistent : Consistent config state.1.1)
    (order : (state.1.2.vertices vertex).lastEventTime ≤ state.1.1.oldTime)
    (stepped : Utilisation.step graph config state choice = some next)
    (serves : Serves config vertex state.1.1 choice) :
    (next.2 vertex).bdt = (state.2 vertex).bdt + busyValue (state.1.1.servers vertex) *
      ((state.1.1.take choice.entry).arrival - (state.1.2.vertices vertex).lastEventTime) := by
  have later : (state.1.2.vertices vertex).lastEventTime ≤
      (state.1.1.take choice.entry).arrival := order.trans (oldTime_le_take _ _)
  have diff := sub_nonneg.mpr later
  obtain ⟨done, _⟩ := Utilisation.step_cases stepped
  have served := consistent.served vertex
  rw [load_served stepped serves]
  simp only [utilisationHandler, if_pos serves.2.2.1]
  cases serverTurn_cases consistent (Monitor.step_cases done).1 vertex with
  | unserved other => exact absurd serves other
  | arrival _ type busy queue =>
      rw [if_pos type]
      cases before : (state.1.1.servers vertex).busy with
      | true =>
          have more : 0 < (next.1.1.servers vertex).numberInQueue := by
            have nonneg := served.nonneg
            rw [queue, before, if_pos rfl]
            omega
          rw [if_pos ⟨more, diff⟩, busyValue, if_pos before, one_mul]
      | false =>
          have none : ¬0 < (state.1.1.servers vertex).numberInQueue := fun waiting => by
            rw [served.waiting waiting] at before
            cases before
          have still : ¬(next.1.1.servers vertex).numberInQueue > 0 := by
            rw [queue, before]
            simpa using none
          rw [if_neg fun both => still both.1, busyValue, before]
          simp
  | last _ type busy =>
      rw [if_neg (departure_ne_arrival type), if_pos diff, busyValue, if_pos busy, one_mul]
  | next _ type busy =>
      rw [if_neg (departure_ne_arrival type), if_pos diff, busyValue, if_pos busy, one_mul]

structure BusyMeasured (graph : Graph) (config : Config) (initial : SystemStatistics)
    (vertex : Int) (choices : List Choice) (state : Utilisation.State) : Prop where
  consistent : Consistent config state.1.1
  order : (state.1.2.vertices vertex).lastEventTime ≤ state.1.1.oldTime
  settled : ∃ earlier,
    busyTimes graph config initial vertex choices =
      (state.1.1.oldTime, busyValue (state.1.1.servers vertex)) :: earlier ∧
    Timeline.Settled state.1.1.oldTime (busyValue (state.1.1.servers vertex)) earlier
      (state.1.2.vertices vertex).lastEventTime (state.2 vertex).bdt 0
  ordered : Timeline.Ordered (busyTimes graph config initial vertex choices) state.1.1.oldTime

theorem start_busyMeasured :
    BusyMeasured graph config initial vertex [] (Utilisation.start config initial) where
  consistent := start_consistent config
  order := le_rfl
  settled := ⟨[], rfl, ⟨by
    simp [Utilisation.start, Processor.start, Server.fresh, busyValue, Monitor.start,
      VertexStatistics.fresh, Utilisation.fresh, Timeline.integral]⟩⟩
  ordered := by
    simp [Timeline.Ordered, busyTimes, Runs.states, Utilisation.start, Processor.start]

theorem BusyMeasured.step (measured : BusyMeasured graph config initial vertex choices state)
    (ran : Runs.run (Utilisation.step graph config) (Utilisation.start config initial) choices =
      some state)
    (stepped : Utilisation.step graph config state choice = some next) :
    BusyMeasured graph config initial vertex (choices ++ [choice]) next := by
  obtain ⟨monitored, _⟩ := Utilisation.step_cases stepped
  obtain ⟨done, _⟩ := Monitor.step_cases monitored
  obtain ⟨earlier, times, settled⟩ := measured.settled
  have clock := step_oldTime done
  have consistent := measured.consistent.step done
  have order := lastEventTime_le monitored measured.order
  have onward : state.1.1.oldTime ≤ next.1.1.oldTime := clock ▸ oldTime_le_take _ _
  have longer : busyTimes graph config initial vertex (choices ++ [choice]) =
      (next.1.1.oldTime, busyValue (next.1.1.servers vertex)) ::
        busyTimes graph config initial vertex choices := by
    rw [busyTimes, Runs.states_concat ran stepped, List.map_cons, busyTimes]
  have ordered : Timeline.Ordered (busyTimes graph config initial vertex (choices ++ [choice]))
      next.1.1.oldTime := by
    rw [longer]
    exact measured.ordered.cons consistent.clock onward _
  by_cases serves : Serves config vertex state.1.1 choice
  · have bdt := served_bdt measured.consistent measured.order stepped serves
    refine ⟨consistent, order, ⟨_, longer, ?_⟩, ordered⟩
    have settles := settled.settle next.1.1.oldTime (busyValue (next.1.1.servers vertex)) 0
    rw [add_zero, add_zero, clock, ← bdt, ← clock] at settles
    rwa [times, served_lastEventTime monitored serves]
  · obtain ⟨last, _⟩ := turn_unserved monitored serves
    have same := unserved_server measured.consistent done serves
    refine ⟨consistent, order, ⟨_, longer, ?_⟩, ordered⟩
    rw [times, last, load_unserved stepped serves, same]
    exact settled.wait _

theorem run_busyMeasured
    (ran : Runs.run (Utilisation.step graph config) (Utilisation.start config initial) choices =
      some final) (vertex : Int) : BusyMeasured graph config initial vertex choices final := by
  refine Runs.run_induction (motive := fun choices state =>
    BusyMeasured graph config initial vertex choices state) start_busyMeasured ?_ ran
  rintro choices before choice after ran measured stepped
  exact measured.step ran stepped

/-- After an arrival or a departure of a vertex, later than time zero, the busy time of the vertex
is the time for which its server was busy, and the utilisation its share of the time. -/
theorem run_busy_time
    (ran : Runs.run (Utilisation.step graph config) (Utilisation.start config initial) choices =
      some before)
    (stepped : Utilisation.step graph config before choice = some final)
    (serves : Serves config vertex before.1.1 choice)
    (positive : 0 < (before.1.1.take choice.entry).arrival) :
    let time := (before.1.1.take choice.entry).arrival
    (final.2 vertex).bdt =
        Timeline.integral (busyTimes graph config initial vertex choices) time ∧
      (final.2 vertex).utilisation = some ((final.2 vertex).bdt / time) ∧
      0 ≤ (final.2 vertex).bdt / time ∧ (final.2 vertex).bdt / time ≤ 1 := by
  intro time
  have measured := run_busyMeasured (Runs.run_concat ran stepped) vertex
  have earlier := run_busyMeasured ran vertex
  obtain ⟨monitored, _⟩ := Utilisation.step_cases stepped
  have clock := step_oldTime (Monitor.step_cases monitored).1
  have last := served_lastEventTime monitored serves
  have bdt : (final.2 vertex).bdt =
      Timeline.integral (busyTimes graph config initial vertex choices) time := by
    obtain ⟨older, times, settled⟩ := measured.settled
    rw [busyTimes, Runs.states_concat ran stepped, List.map_cons, List.cons.injEq] at times
    rw [last] at settled
    rw [settled.sum_eq, ← times.2, clock, add_zero]
    rfl
  have ordered : Timeline.Ordered (busyTimes graph config initial vertex choices) time := by
    obtain ⟨sorted, bounds⟩ := earlier.ordered
    refine ⟨sorted, fun change member => ⟨(bounds change member).1, ?_⟩⟩
    exact (bounds change member).2.trans (oldTime_le_take _ _)
  refine ⟨bdt, ?_, ?_, ?_⟩
  · rw [load_served stepped serves]
    simp only [utilisationHandler, if_pos serves.2.2.1]
    rw [divide, if_neg positive.ne']
  · rw [bdt]
    exact div_nonneg (Timeline.integral_nonneg ordered fun change member =>
      (busyTimes_bounds member).1) positive.le
  · rw [bdt, div_le_one₀ positive]
    exact Timeline.integral_le ordered positive.le fun change member =>
      (busyTimes_bounds member).2

theorem run_busy_time_oneArrival :
    ∃ before final,
      Runs.run (Utilisation.step lonely lonelyConfig)
        (Utilisation.start lonelyConfig lonelyStart) oneArrival = some before ∧
      Utilisation.step lonely lonelyConfig before itsDeparture = some final ∧
      (final.2 0).bdt = Timeline.integral
        (busyTimes lonely lonelyConfig lonelyStart 0 oneArrival)
        (before.1.1.take itsDeparture.entry).arrival := by
  have checked : ∃ before ∈ Runs.run (Utilisation.step lonely lonelyConfig)
      (Utilisation.start lonelyConfig lonelyStart) oneArrival,
      ∃ final ∈ Utilisation.step lonely lonelyConfig before itsDeparture,
        Serves lonelyConfig 0 before.1.1 itsDeparture ∧
          0 < (before.1.1.take itsDeparture.entry).arrival := by
    decide +kernel
  obtain ⟨before, ran, final, stepped, serves, positive⟩ := checked
  exact ⟨before, final, ran, stepped, (run_busy_time ran stepped serves positive).1⟩

end Busy

end RlAqs
