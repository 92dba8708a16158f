import RlAqs.Statistics.RewardsCore

/-!
The expert metrics, which are called at an acknowledgement after `ResponseStatsHandler`, and
`DefaultResponseHandler`, which is called after them when there is no learning. All of them come
before `AckHandler` takes the top of the history stack.
-/

namespace RlAqs

structure Expert where
  stats : ResponseStats
  normal : ℚ
  absolute : ℚ
  positive : ℚ
  negative : ℚ
  deriving DecidableEq, Repr

def Expert.fresh : Expert where
  stats := ResponseStats.fresh
  normal := 0
  absolute := 0
  positive := 0
  negative := 0

/-- The Q-value of an edge is nothing where the double is no number. -/
structure Metrics where
  experts : Int → Expert
  qStats : Array OnlineStats
  qVal : Nat × Nat → Option ℚ

def Graph.edge (graph : Graph) (source target : Int) : Option (Nat × Nat) :=
  if graph.HasEdge source target then some (source.toNat, target.toNat) else none

namespace Handlers

def expertNormalHandler (expert : Expert) (entry : Entry) : Option Expert :=
  entry.getReward.map fun reward => { expert with normal := expert.normal + reward }

def expertAbsoluteHandler (expert : Expert) (entry : Entry) : Option Expert :=
  entry.getReward.map fun reward => { expert with absolute := expert.absolute + |reward| }

def qval (graph : Graph) (qVal : Nat × Nat → Option ℚ) (expert : Expert) (entry : Entry) :
    Option (Option ℚ) :=
  if graph.outDegree entry.destination > 0 then
    (graph.edge entry.destination entry.origin).map qVal
  else some expert.stats.meanReward

/-- No number is above one that is none. -/
def expertPositiveHandler (graph : Graph) (qVal : Nat × Nat → Option ℚ) (expert : Expert)
    (entry : Entry) : Option Expert := do
  let reward ← entry.getReward
  match ← qval graph qVal expert entry with
  | none => return expert
  | some qval =>
      return if reward > qval then
        { expert with positive := expert.positive + (reward - qval) } else expert

def expertNegativeHandler (graph : Graph) (qVal : Nat × Nat → Option ℚ) (expert : Expert)
    (entry : Entry) : Option Expert := do
  let reward ← entry.getReward
  match ← qval graph qVal expert entry with
  | none => return expert
  | some qval =>
      return if reward < qval then
        { expert with negative := expert.negative + (qval - reward) } else expert

/-- The index of an edge is cut to 16 bits; the result is nothing where the array has no such
element. -/
def defaultResponseHandler (graph : Graph) (index : Nat × Nat → Nat) (metrics : Metrics)
    (entry : Entry) : Option Metrics :=
  if graph.outDegree entry.destination > 0 then do
    let top ← entry.topArrival
    let roundTripTime := top - entry.arrival
    let e ← graph.edge entry.destination entry.origin
    let edgeIndex := index e % 65536
    let stats := (← metrics.qStats[edgeIndex]?).push roundTripTime
    return { metrics with
      qStats := metrics.qStats.setIfInBounds edgeIndex stats
      qVal := Function.update metrics.qVal e stats.mean }
  else some metrics

end Handlers

namespace Metrics

open Handlers

variable (graph : Graph) (config : Config) (index : Nat × Nat → Nat)

abbrev State := Processor × Metrics

/-- The Q-values are those of the graph, which has statistics for each of its edges. -/
def start (qVal : Nat × Nat → ℚ) : Metrics where
  experts := fun _ => Expert.fresh
  qStats := Array.replicate graph.edges.length OnlineStats.fresh
  qVal := fun edge => some (qVal edge)

def ack (metrics : Metrics) (entry : Entry) : Option Metrics := do
  let expert := metrics.experts entry.destination
  let stats ← responseStatsHandler expert.stats entry
  let expert ← expertNormalHandler { expert with stats := stats } entry
  let expert ← expertAbsoluteHandler expert entry
  let expert ← expertPositiveHandler graph metrics.qVal expert entry
  let expert ← expertNegativeHandler graph metrics.qVal expert entry
  defaultResponseHandler graph index
    { metrics with experts := Function.update metrics.experts entry.destination expert } entry

def turn (metrics : Metrics) (entry : Entry) (next : Processor) : Option Metrics :=
  if entry.origin = adminEvent ∨ next.stopped ∨ next.undefined then some metrics
  else if entry.type = ackEvent ∨ entry.type = ack1hopEvent then metrics.ack graph index entry
  else some metrics

def step (state : State) (choice : Choice) : Option State :=
  (Processor.step graph config state.1 choice).bind fun next =>
    (turn graph index state.2 (state.1.take choice.entry) next).map fun metrics =>
      (next, metrics)

end Metrics

end RlAqs
