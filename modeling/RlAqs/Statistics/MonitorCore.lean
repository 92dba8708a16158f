import RlAqs.Simulator.ProcessorCore
import RlAqs.Statistics.StatisticsCore

/-!
The handlers of `src/core/event` that keep statistics, beside the event loop: those of the
vertices, the two that set the system-wide properties of the graph, and what `Report` reads
of these once the loop is left.
-/

namespace RlAqs

/-- `push` of a double that may be no number. -/
def OnlineStats.pushValue (stats : OnlineStats) : Option ℚ → OnlineStats
  | some x => stats.push x
  | none =>
      let n := (stats.n + 1) % 2 ^ 32
      if n = 1 then { stats with n := n, oldM := none, oldS := some 0 }
      else { n := n, oldM := none, newM := none, oldS := none, newS := none }

def accumulateRange (values : List (Option ℚ)) : Option ℚ :=
  values.foldl (fun sum value => sum.bind fun sum => value.map fun value => sum + value) (some 0)

structure VertexStatistics where
  lastEventTime : ℚ
  qdt : ℚ
  expectedAverageNumberEvent : Option ℚ
  /-- `m_EventInSystem` of `LeaveHandler`. -/
  eventInSystem : OnlineStats
  avgEventInSystemTime : Option ℚ
  deriving DecidableEq, Repr

def VertexStatistics.fresh : VertexStatistics where
  lastEventTime := 0
  qdt := 0
  expectedAverageNumberEvent := some 0
  eventInSystem := OnlineStats.fresh
  avgEventInSystemTime := some 0

structure SystemStatistics where
  delay : Option ℚ
  numEvents : Option ℚ
  processingTime : Option ℚ
  deriving DecidableEq, Repr

structure Snapshot where
  servers : Int → Server
  vertices : Int → VertexStatistics

namespace Snapshot

def averageDelay (server : Server) (_ : VertexStatistics) : Option ℚ :=
  server.averageDelayInQueue

def expectedNumber (_ : Server) (vertex : VertexStatistics) : Option ℚ :=
  vertex.expectedAverageNumberEvent

def averageTime (_ : Server) (vertex : VertexStatistics) : Option ℚ := vertex.avgEventInSystemTime

def total (graph : Graph) (property : Server → VertexStatistics → Option ℚ) (snapshot : Snapshot) :
    Option ℚ :=
  accumulateRange ((List.range graph.size).map fun vertex =>
    property (snapshot.servers vertex) (snapshot.vertices vertex))

/-- The three sums, of which the processing time is not divided by the number of vertices. -/
def system (graph : Graph) (snapshot : Snapshot) : SystemStatistics where
  delay := (snapshot.total graph averageDelay).bind fun delay => divide delay graph.size
  numEvents := (snapshot.total graph expectedNumber).bind fun sum => divide sum graph.size
  processingTime := snapshot.total graph averageTime

end Snapshot

namespace Handlers

def servesEvent (entry : Entry) : Prop :=
  entry.type = lastArrivalEvent ∨ entry.type = arrivalEvent ∨ entry.type = departureEvent

instance (entry : Entry) : Decidable (servesEvent entry) :=
  inferInstanceAs (Decidable (_ ∨ _ ∨ _))

def expectedAverageEventInQueueHandler (server : Server) (vertex : VertexStatistics)
    (entry : Entry) : VertexStatistics :=
  if servesEvent entry then
    let diff := entry.arrival - vertex.lastEventTime
    let numInQueue : ℚ := server.numberInQueue
    let (q, numInQueue) :=
      if entry.type = lastArrivalEvent ∨ entry.type = arrivalEvent then
        if server.numberInQueue > 0 ∧ diff ≥ 0 then (diff, numInQueue - 1) else (0, numInQueue)
      else if diff ≥ 0 then (diff, numInQueue + 1)
      else (0, numInQueue)
    let qdt := vertex.qdt + q * numInQueue
    { vertex with qdt := qdt, expectedAverageNumberEvent := divide qdt entry.arrival }
  else vertex

def lastEventHandler (vertex : VertexStatistics) (entry : Entry) : VertexStatistics :=
  if servesEvent entry then { vertex with lastEventTime := entry.arrival } else vertex

def leaveHandler (vertex : VertexStatistics) (entry : Entry) : VertexStatistics :=
  let inSystem :=
    if entry.arrival - entry.externalArrival > 0 then entry.arrival - entry.externalArrival else 0
  let eventInSystem := vertex.eventInSystem.push inSystem
  { vertex with eventInSystem := eventInSystem, avgEventInSystemTime := eventInSystem.mean }

/-- The statistics before it are not counted. -/
def startCalculating (config : Config) : ℚ :=
  config.stopTime - config.systemStatsSteps * config.systemStatsInterval

def countsEvent (config : Config) (entry : Entry) : Prop :=
  config.systemStatsSteps > 0 ∧ entry.type = systemStatisticsEvent ∧
    entry.arrival > startCalculating config

instance (config : Config) (entry : Entry) : Decidable (countsEvent config entry) :=
  inferInstanceAs (Decidable (_ ∧ _ ∧ _))

end Handlers

structure Monitor where
  vertices : Int → VertexStatistics
  /-- `m_delay` of `RollingSystemStatsAdminHandler`, and its two other counters. -/
  delay : OnlineStats
  numEvents : OnlineStats
  processingTime : OnlineStats
  system : SystemStatistics
  /-- The vertex properties at the events counted so far. -/
  counted : List Snapshot

namespace Monitor

open Handlers

/-- `system` is what the graph is read with. -/
def start (system : SystemStatistics) : Monitor where
  vertices := fun _ => VertexStatistics.fresh
  delay := OnlineStats.fresh
  numEvents := OnlineStats.fresh
  processingTime := OnlineStats.fresh
  system := system
  counted := []

/-- The entry that it pushes is `rollingSystemStatsAdminHandler`. -/
def rollingSystemStats (graph : Graph) (config : Config) (monitor : Monitor)
    (servers : Int → Server) (entry : Entry) : Monitor :=
  if countsEvent config entry then
    let values := Snapshot.system graph ⟨servers, monitor.vertices⟩
    let numEvents := monitor.numEvents.pushValue values.numEvents
    let delay := monitor.delay.pushValue values.delay
    let processingTime := monitor.processingTime.pushValue values.processingTime
    { monitor with
      delay := delay
      numEvents := numEvents
      processingTime := processingTime
      system := ⟨delay.mean, numEvents.mean, processingTime.mean⟩
      counted := monitor.counted ++ [⟨servers, monitor.vertices⟩] }
  else monitor

def leave (monitor : Monitor) (entry : Entry) : Monitor :=
  if entry.type = leaveEvent then
    { monitor with
      vertices := Function.update monitor.vertices entry.origin
        (leaveHandler (monitor.vertices entry.origin) entry) }
  else monitor

/-- `PostAnyEvent::postAny`, once the servers are changed. -/
def postAny (monitor : Monitor) (servers : Int → Server) (entry : Entry) : Monitor :=
  let vertex := entry.destination
  { monitor with
    vertices := Function.update monitor.vertices vertex
      (lastEventHandler
        (expectedAverageEventInQueueHandler (servers vertex) (monitor.vertices vertex) entry)
        entry) }

/-- `SystemStatisticsHandler`, which `PostEvent::post` calls after the loop. -/
def post (graph : Graph) (monitor : Monitor) (servers : Int → Server) : Monitor :=
  { monitor with system := Snapshot.system graph ⟨servers, monitor.vertices⟩ }

def turn (graph : Graph) (config : Config) (monitor : Monitor) (entry : Entry)
    (next : Processor) : Monitor :=
  if entry.origin = adminEvent then monitor.rollingSystemStats graph config next.servers entry
  -- The loop was left at the event, or broken off before `postAny`.
  else if next.stopped ∨ next.undefined then monitor
  else (monitor.leave entry).postAny next.servers entry

def step (graph : Graph) (config : Config) (state : Processor × Monitor) (choice : Choice) :
    Option (Processor × Monitor) :=
  (Processor.step graph config state.1 choice).map fun next =>
    (next, state.2.turn graph config (state.1.take choice.entry) next)

end Monitor

structure SimOutput where
  systemAverageDelay : Option ℚ
  systemExpectedAverageNumInQueue : Option ℚ
  systemTotalQ : Option ℚ
  deriving DecidableEq, Repr

def accumResults (system : SystemStatistics) : SimOutput where
  systemAverageDelay := system.delay
  systemExpectedAverageNumInQueue := system.numEvents
  systemTotalQ := system.processingTime

/-- The report once `EventProcessor::process` returned: the loop ends at the stop time or with
the last event, and either way the post event is fired. -/
def report (graph : Graph) (state : Processor × Monitor) : Option SimOutput :=
  if state.1.stopped ∨ (state.1.pending = [] ∧ ¬state.1.undefined) then
    some (accumResults (state.2.post graph state.1.servers).system)
  else none

end RlAqs
