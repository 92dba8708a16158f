import RlAqs.Network.GraphCore
import RlAqs.Queue.EntryCore
import RlAqs.Statistics.StatisticsCore
import Mathlib.Data.NNRat.Defs

/-!
The event handlers of `src/core/event`: what each of them does to the vertex its event
is for, and the entries it pushes into the queue. An entry that is constructed counts
`uid` up, so a handler is given the counter it finds. The handlers that only collect
statistics are left out.
-/

namespace RlAqs

/-! Event types and event sources of `events.hh`. -/

abbrev lastArrivalEvent : Int := 0
abbrev arrivalEvent : Int := 1
abbrev departureEvent : Int := 2
abbrev ackEvent : Int := 3
abbrev ack1hopEvent : Int := 4
abbrev leaveEvent : Int := 5
abbrev logGraphEvent : Int := 10
abbrev generateArrivalEvent : Int := 11
abbrev serialiseArrivalEvent : Int := 12
abbrev systemStatisticsEvent : Int := 13

abbrev externalEvent : Int := -1
abbrev adminEvent : Int := -2

/-- The parts of `desArgs_t` that the event loop reads, with their defaults. -/
structure Config where
  stopTime : ℚ := 0
  logGraphs : Bool := false
  graphRate : Int := 0
  mfrw : Bool := false
  mfrwT : Nat := 0
  systemStatsSteps : Nat := 0
  systemStatsInterval : Nat := 1
  rlCi : Bool := false
  deriving DecidableEq, Repr

/-- The vertex properties of the server. The mean is `none` once it is no number. -/
structure Server where
  busy : Bool
  numberInQueue : Int
  timeServiceEnds : ℚ
  /-- An `int`. -/
  numEvents : Int
  averageDelayInQueue : Option ℚ
  deriving DecidableEq, Repr

def Server.fresh : Server where
  busy := false
  numberInQueue := 0
  timeServiceEnds := 0
  numEvents := 0
  averageDelayInQueue := some 0

/-- The mean with one more delay, which is counted already. -/
def Server.addDelay (server : Server) (delay : ℚ) : Option ℚ :=
  server.averageDelayInQueue.bind fun xbar => Stats.mean server.numEvents xbar delay

namespace EventGenerator

def generateAdminEventType (uid : Nat) (time : ℚ) (type : Int) : Entry :=
  Entry.new uid 0 time (-99) adminEvent type

/-- `gap` is the negated draw of `Rng::poiss`. -/
def generateArrival (uid : Nat) (destination : Int) (startTime : ℚ) (gap : ℚ≥0) : Entry :=
  Entry.new uid 0 (startTime + gap) destination externalEvent lastArrivalEvent

end EventGenerator

namespace Handlers

open EventGenerator

def generateArrivalsHandler (uid : Nat) (entry : Entry) (gap : ℚ≥0) : Entry :=
  generateArrival uid entry.destination entry.arrival gap

def numEventsHandler (server : Server) (entry : Entry) : Server :=
  if entry.type = lastArrivalEvent ∨ entry.type = arrivalEvent then
    { server with numEvents := toInt (server.numEvents + 1) }
  else server

def arrivalHandler (server : Server) (uid : Nat) (entry : Entry) (serviceTime : ℚ≥0) :
    Server × Entry :=
  let newEntry := (entry.copy uid).pushEventHistory entry.origin entry.arrival
  if server.busy then
    let delay :=
      if server.timeServiceEnds - entry.arrival < 0 then 0
      else server.timeServiceEnds - entry.arrival
    let departure := server.timeServiceEnds + serviceTime
    ({ server with
        numberInQueue := server.numberInQueue + 1
        timeServiceEnds := departure
        averageDelayInQueue := server.addDelay delay },
      newEntry.delayed delay departure departureEvent)
  else
    let departure := entry.arrival + serviceTime
    ({ server with
        busy := true
        timeServiceEnds := departure
        averageDelayInQueue := server.addDelay 0 },
      newEntry.service departure departureEvent)

/-- `selected` is the answer of the policy, asked for only when there are out-edges. -/
def departureHandler (graph : Graph) (server : Server) (uid : Nat) (entry : Entry)
    (selected : Nat) : Server × Entry :=
  let server := if server.numberInQueue = 0 then { server with busy := false } else server
  let server :=
    if server.numberInQueue > 0 then
      { server with numberInQueue := server.numberInQueue - 1 }
    else server
  if graph.outDegree entry.destination > 0 then
    (server, (entry.copy uid).depart selected arrivalEvent)
  else
    (server, (entry.copy uid).acknowledge entry.destination entry.destination ackEvent)

/-- The copies for the other predecessors of the vertex, when `rl_ci` is set. -/
def ackCopies (graph : Graph) (uid : Nat) (entry : Entry) (destination : Int) : List Entry :=
  ((graph.sources entry.destination).filter fun source => source ≠ destination).mapIdx
    fun index source =>
      (entry.copy (uid + index)).acknowledge entry.destination source ack1hopEvent

/-- `none` when `popEvent` finds an empty stack. -/
def ackHandler (graph : Graph) (config : Config) (uid : Nat) (entry : Entry) :
    Option (List Entry) :=
  if entry.type = ackEvent then
    match entry.popEvent with
    | none => none
    | some (destination, entry) =>
        let newEntry :=
          if destination = externalEvent then
            (entry.copy uid).leave externalEvent leaveEvent
          else (entry.copy uid).acknowledge entry.destination destination ackEvent
        if config.rlCi ∧ destination ≠ externalEvent then
          some (newEntry :: ackCopies graph (uid + 1) entry destination)
        else some [newEntry]
  else some []

/-- What the response handlers read of the entry before `AckHandler` is called. The
handlers that learn take the reward first; `DefaultResponseHandler` reads the same stack
at vertices with out-edges only. -/
def responseHandler (entry : Entry) : Option ℚ := entry.getReward

/-! Admin events. -/

def serialiseInterval (config : Config) : ℚ := config.stopTime / config.mfrwT

def serialiseArrivalsHandler (config : Config) (currentTimeStep uid : Nat) (entry : Entry) :
    Nat × List Entry :=
  if entry.type = serialiseArrivalEvent ∧ currentTimeStep < config.mfrwT then
    let currentTimeStep := currentTimeStep + 1
    (currentTimeStep, [generateAdminEventType uid
      (serialiseInterval config * currentTimeStep) serialiseArrivalEvent])
  else (currentTimeStep, [])

def generateArrivalsAdminHandler (graph : Graph) (uid : Nat) (entry : Entry)
    (gap : Int → ℚ≥0) : List Entry :=
  if entry.type = generateArrivalEvent then
    (List.range graph.size).map fun vertex =>
      generateArrival (uid + vertex) vertex entry.arrival (gap vertex)
  else []

def logGraphInterval (config : Config) : ℚ :=
  if config.logGraphs ∧ config.graphRate > 1 then config.stopTime / config.graphRate
  else config.stopTime

def logGraphHandler (config : Config) (counter uid : Nat) (entry : Entry) :
    Nat × List Entry :=
  if entry.type = logGraphEvent then
    let counter := counter + 1
    (counter,
      if counter * logGraphInterval config ≤ config.stopTime then
        [generateAdminEventType uid (counter * logGraphInterval config) logGraphEvent]
      else [])
  else (counter, [])

/-- Attached only when `system_stats_steps` is positive. -/
def rollingSystemStatsAdminHandler (config : Config) (uid : Nat) (entry : Entry) :
    List Entry :=
  if config.systemStatsSteps > 0 ∧ entry.type = systemStatisticsEvent then
    let startTime := entry.arrival + config.systemStatsInterval
    if startTime ≤ config.stopTime then
      [generateAdminEventType uid startTime systemStatisticsEvent]
    else []
  else []

end Handlers

end RlAqs
