import RlAqs.Campaign.MasterCore
import RlAqs.Statistics.StatisticsCore

/-!
The statistics over the replications of an experiment: those that `SimulationCI` keeps while it
simulates one replication after the other, and those of the master in `SimulationMPI::simulate`,
to whom the workers report in any order.
-/

namespace RlAqs

structure Outcome where
  averageDelay : ℚ
  averageNumInQueue : ℚ
  totalQ : ℚ
  deriving DecidableEq, Repr

/-- The statistics of the replications in `sim_output`; an `sd` is a variance. -/
structure Summary where
  replications : Int
  meanDelay : Option ℚ
  sdDelay : Option ℚ
  meanNumInQueue : Option ℚ
  sdNumInQueue : Option ℚ
  meanTotalQ : Option ℚ
  sdTotalQ : Option ℚ
  deriving DecidableEq, Repr

structure Precision where
  functions : CI.Functions
  alpha : ℚ
  error : ℚ

structure Tally where
  avgDelay : OnlineStats
  avgNumEvents : OnlineStats
  totalQ : OnlineStats
  deriving DecidableEq, Repr

namespace Tally

def fresh : Tally := ⟨OnlineStats.fresh, OnlineStats.fresh, OnlineStats.fresh⟩

def push (tally : Tally) (outcome : Outcome) : Tally where
  avgDelay := tally.avgDelay.push outcome.averageDelay
  avgNumEvents := tally.avgNumEvents.push outcome.averageNumInQueue
  totalQ := tally.totalQ.push outcome.totalQ

def pushAll (tally : Tally) (outcomes : List Outcome) : Tally := outcomes.foldl push tally

def getNumValues (tally : Tally) : Int := tally.avgDelay.getNumValues

def confident (precision : Precision) (stats : OnlineStats) : Bool :=
  CI.isConfidentWithPrecision precision.functions stats.mean stats.variance stats.getNumValues
    precision.alpha precision.error

def isConfident (precision : Precision) (tally : Tally) : Bool :=
  confident precision tally.avgDelay && confident precision tally.avgNumEvents &&
    confident precision tally.totalQ

def summary (tally : Tally) (replications : Int) : Summary where
  replications := replications
  meanDelay := tally.avgDelay.mean
  sdDelay := tally.avgDelay.variance
  meanNumInQueue := tally.avgNumEvents.mean
  sdNumInQueue := tally.avgNumEvents.variance
  meanTotalQ := tally.totalQ.mean
  sdTotalQ := tally.totalQ.variance

end Tally

/-- `SimulationCI::simulate` between two simulations. -/
structure SimulationCI where
  tally : Tally
  /-- `rep_num`, of 16 bits. -/
  repNum : Nat
  /-- The first loop is not left yet. -/
  initial : Bool
  isConfident : Bool
  /-- The lines of the replica results. -/
  rows : List (Nat × Outcome)
  deriving DecidableEq, Repr

namespace SimulationCI

def start (precision : Precision) (initialExp : Nat) : SimulationCI where
  tally := Tally.fresh
  repNum := 1
  initial := 1 ≤ initialExp
  isConfident := ¬1 ≤ initialExp ∧ Tally.fresh.isConfident precision
  rows := []

/-- One more simulation, with the test once the first loop is left. -/
def step (precision : Precision) (initialExp : Nat) (simulation : SimulationCI)
    (outcome : Outcome) : Option SimulationCI :=
  if simulation.isConfident then none
  else
    let tally := simulation.tally.push outcome
    let repNum := (simulation.repNum + 1) % 2 ^ 16
    let initial := simulation.initial && decide (repNum ≤ initialExp)
    some {
      tally := tally
      repNum := repNum
      initial := initial
      isConfident := !initial && tally.isConfident precision
      rows := simulation.rows ++ [(simulation.repNum, outcome)] }

def result (initialExp : Nat) (simulation : SimulationCI) : Summary :=
  simulation.tally.summary
    (if simulation.repNum > initialExp then simulation.repNum - 1 else simulation.repNum)

end SimulationCI

structure CampaignSettings where
  precision : Precision
  /-- The minimum number of replications. -/
  replications : Nat

structure TalliedCampaign where
  campaign : Campaign
  tallies : List Tally
  /-- What is written at the end of the line of each experiment. -/
  lines : List (List Summary)
  /-- The replica results of each experiment. -/
  rows : List (List (Int × Outcome))
  deriving DecidableEq, Repr

structure Answer where
  source : Nat
  outcome : Outcome
  deriving DecidableEq, Repr

namespace TalliedCampaign

def start (runs initReplications nodes : Nat) : TalliedCampaign where
  campaign := Campaign.start runs initReplications nodes
  tallies := List.replicate runs Tally.fresh
  lines := List.replicate runs []
  rows := List.replicate runs []

/-- The verdict over an experiment, which includes the minimum number of replications. -/
def verdict (settings : CampaignSettings) (tally : Tally) : Bool :=
  tally.isConfident settings.precision && decide (settings.replications ≤ tally.getNumValues)

def step (settings : CampaignSettings) (tallied : TalliedCampaign) (answer : Answer) :
    Option TalliedCampaign :=
  (tallied.campaign.inFlight.find? fun job => job.destination = answer.source).bind fun job =>
    let index := job.simNum - 1
    let tally := (tallied.tallies.getD index Tally.fresh).push answer.outcome
    let isConfident := verdict settings tally
    let experiment := tallied.campaign.master.experiments.getD index default
    let complete := experiment.numValues + 1 ≥ experiment.simReplications
    (tallied.campaign.step ⟨answer.source, isConfident⟩).map fun campaign =>
      { campaign := campaign
        tallies := tallied.tallies.set index tally
        lines :=
          if complete ∧ isConfident then
            tallied.lines.modify index (· ++ [tally.summary tally.getNumValues])
          else tallied.lines
        rows := tallied.rows.modify index (· ++ [(tally.getNumValues, answer.outcome)]) }

end TalliedCampaign

end RlAqs
