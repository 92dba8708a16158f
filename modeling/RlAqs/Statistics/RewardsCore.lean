import RlAqs.Simulator.ProcessorCore
import RlAqs.Statistics.StatisticsCore

/-!
`ResponseStatsHandler`, which is called at an acknowledgement before the handlers that learn and
before `AckHandler` takes the top of the history stack.
-/

namespace RlAqs

structure ResponseStats where
  /-- `vertex_num_events_processed`, of 32 bits with a sign. -/
  numEventsProcessed : Int
  meanReward : Option ℚ
  deriving DecidableEq, Repr

def ResponseStats.fresh : ResponseStats where
  numEventsProcessed := 0
  meanReward := some 0

namespace Handlers

/-- `none` when `topArrival` finds an empty stack. -/
def responseStatsHandler (stats : ResponseStats) (entry : Entry) : Option ResponseStats :=
  entry.topArrival.map fun top =>
    let size := toInt (stats.numEventsProcessed + 1)
    let x := if top - entry.arrival > 0 then top - entry.arrival else 0
    let mean :=
      if size < 2 then some x
      else stats.meanReward.bind fun xbar => Stats.mean (size + 1) xbar x
    { numEventsProcessed := size, meanReward := mean }

end Handlers

namespace ResponseStats

open Handlers

abbrev State := Processor × (Int → ResponseStats)

def start (config : Config) : State := (Processor.start config, fun _ => fresh)

def turn (stats : Int → ResponseStats) (entry : Entry) (next : Processor) :
    Option (Int → ResponseStats) :=
  if entry.origin = adminEvent ∨ next.stopped ∨ next.undefined then some stats
  else if entry.type = ackEvent ∨ entry.type = ack1hopEvent then
    (responseStatsHandler (stats entry.destination) entry).map fun after =>
      Function.update stats entry.destination after
  else some stats

def step (graph : Graph) (config : Config) (state : State) (choice : Choice) : Option State :=
  (Processor.step graph config state.1 choice).bind fun next =>
    (turn state.2 (state.1.take choice.entry) next).map fun stats => (next, stats)

end ResponseStats

end RlAqs
