import RlAqs.Simulator.HandlersCore
import RlAqs.Library.Runs

/-!
The loop of `EventProcessor::process` over a queue that hands events out in time order.
A turn takes one of the earliest pending events; which one, and the random draws of its
handlers, are the choice of the turn.
-/

namespace RlAqs

structure Choice where
  /-- The event that `dequeue` hands out. -/
  entry : Entry
  serviceTime : ℚ≥0
  /-- The interarrival time drawn for a vertex. -/
  gap : Int → ℚ≥0
  /-- The destination the policy selects. -/
  selected : Nat

/-- A processed event with its service draw and the entries pushed for it. -/
structure Record where
  entry : Entry
  serviceTime : ℚ≥0
  pushed : List Entry
  deriving DecidableEq

structure Processor where
  servers : Int → Server
  pending : List Entry
  uid : Nat
  oldTime : ℚ
  /-- `m_counter` of `LogGraphHandler`. -/
  counter : Nat
  /-- `m_currentTimeStep` of `SerialiseArrivalsHandler`. -/
  currentTimeStep : Nat
  /-- The loop was left at the stop time. -/
  stopped : Bool
  /-- `top` or `pop` was called on an empty history stack. -/
  undefined : Bool
  /-- What `preAny` was called with and what came of it, newest first. -/
  processed : List Record

namespace Processor

open Handlers EventGenerator

def push (processor : Processor) (entries : List Entry) : Processor :=
  { processor with
    pending := processor.pending ++ entries
    uid := processor.uid + entries.length }

/-- The admin events that `Simulation` pushes before the loop. -/
def initialTypes (config : Config) : List Int :=
  (if config.mfrw then [serialiseArrivalEvent] else []) ++ [generateArrivalEvent] ++
    (if config.logGraphs then [logGraphEvent] else []) ++
    (if config.systemStatsSteps > 0 then [systemStatisticsEvent] else [])

def start (config : Config) : Processor where
  servers := fun _ => Server.fresh
  pending := (initialTypes config).mapIdx fun uid type => generateAdminEventType uid 0 type
  uid := (initialTypes config).length
  oldTime := 0
  counter := 0
  currentTimeStep := 0
  stopped := false
  undefined := false
  processed := []

def epsilon : ℚ := 1 / 2 ^ 52

/-- The event as the turn handles it, with its time corrected when it lies in the past. -/
def take (processor : Processor) (entry : Entry) : Entry :=
  if entry.arrival < processor.oldTime then entry.setArrival (processor.oldTime + epsilon)
  else entry

/-- `AdminEvent::admin`: the handlers in the order they are attached. -/
def admin (graph : Graph) (config : Config) (processor : Processor) (entry : Entry)
    (gap : Int → ℚ≥0) : Processor :=
  let (currentTimeStep, serialised) :=
    serialiseArrivalsHandler config processor.currentTimeStep processor.uid entry
  let processor := { processor with currentTimeStep := currentTimeStep }.push serialised
  let processor :=
    processor.push (generateArrivalsAdminHandler graph processor.uid entry gap)
  let (counter, logged) := logGraphHandler config processor.counter processor.uid entry
  let processor := { processor with counter := counter }.push logged
  processor.push (rollingSystemStatsAdminHandler config processor.uid entry)

def handle (graph : Graph) (config : Config) (processor : Processor) (entry : Entry)
    (choice : Choice) : Option ((Int → Server) × List Entry) :=
  let vertex := entry.destination
  if entry.type = lastArrivalEvent ∨ entry.type = arrivalEvent then
    -- `LAST_ARRIVAL_EVENT` falls through to `ARRIVAL_EVENT`.
    let generated :=
      if entry.type = lastArrivalEvent then
        [generateArrivalsHandler processor.uid entry (choice.gap vertex)]
      else []
    let (server, departure) :=
      arrivalHandler (numEventsHandler (processor.servers vertex) entry)
        (processor.uid + generated.length) entry choice.serviceTime
    some (Function.update processor.servers vertex server, generated ++ [departure])
  else if entry.type = departureEvent then
    let (server, next) :=
      departureHandler graph (processor.servers vertex) processor.uid entry choice.selected
    some (Function.update processor.servers vertex server, [next])
  else if entry.type = ackEvent ∨ entry.type = ack1hopEvent then
    (responseHandler entry).bind fun _ =>
      (ackHandler graph config processor.uid entry).map fun pushed =>
        (processor.servers, pushed)
  else some (processor.servers, [])

/-- An event that the loop stops at, or breaks off at, stays unprocessed. -/
def step (graph : Graph) (config : Config) (processor : Processor) (choice : Choice) :
    Option Processor :=
  if processor.stopped ∨ processor.undefined then none
  else if choice.entry ∈ processor.pending ∧
      ∀ other ∈ processor.pending, choice.entry.arrival ≤ other.arrival then
    let entry := processor.take choice.entry
    let rest := processor.pending.erase choice.entry
    let processor := { processor with pending := rest, oldTime := entry.arrival }
    if entry.origin = adminEvent then
      some (processor.admin graph config entry choice.gap)
    else if entry.arrival > config.stopTime then
      some { processor with pending := entry :: rest, stopped := true }
    else match processor.handle graph config entry choice with
      | none => some { processor with pending := entry :: rest, undefined := true }
      | some (servers, pushed) =>
          some { processor.push pushed with
            servers := servers
            processed := ⟨entry, choice.serviceTime, pushed⟩ :: processor.processed }
  else none

end Processor

end RlAqs
