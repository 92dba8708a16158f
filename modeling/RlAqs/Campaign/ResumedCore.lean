import RlAqs.Campaign.MasterCore
import RlAqs.Campaign.ParametersCore

/-!
A campaign that adds to the results of an earlier one. `SimulationMPI::simulate` numbers its
simulations after the directories that are there; the number less one is the row of the design
and the index into the tables of the receive loop, and every such access is recorded here. A
worker keeps the number in 16 bits; a signed integer has no bound.
-/

namespace RlAqs

structure CampaignArgs extends DesArgs where
  lhsOptimal : Bool
  simulations : Nat
  initReplications : Nat
  addSim : String
  deriving DecidableEq, Repr

/-- One entry of a directory: whether it is a directory, nothing where `status` throws. -/
def FsUtils.countDirectory (count : Int) : Option Bool → Int
  | some true => count + 1
  | some false => count
  | none => -1

def FsUtils.directories (entries : List (Option Bool)) : Int := entries.foldl countDirectory 0

def LhsUtils.dimensions (args : DesArgs) : Nat := (marks args).count true

inductive Table
  | avgDelays
  | avgNumEvents
  | totalQs
  | simReplications
  | simInitReplications
  | simActiveReplications
  | areExpsSignificant
  | simResultsLines
  | replicaResults
  deriving DecidableEq, Repr

/-- A row of the design that `assignParams` reads, or an element of a table that a reply to a job
of a design point makes the receive loop use. -/
inductive Access
  | row (index : Nat)
  | element (table : Table) (index point : Nat)
  deriving DecidableEq, Repr

namespace SimulationMPI

def runs (args : CampaignArgs) : Nat :=
  if args.lhsOptimal then 2 ^ args.simulations + 1 else args.simulations

/-- The results directory is there: the file for all simulations has been opened in it. -/
def alreadyRun (args : CampaignArgs) (entries : List (Option Bool)) : Int :=
  if args.addSim ≠ "" then FsUtils.directories entries + 1 else 0

def rows (args : DesArgs) (simNum : Nat) : List Nat :=
  (List.range 14).filterMap fun factor =>
    if LhsUtils.index args factor ≥ 0 then some (simNum - 1) else none

/-- The tables a reply makes the master use, in their order. Without the element at its index
nothing is known about what the master does after it has looked there. -/
def touched (experiment : Option Experiment) (isConfident : Bool) : List Table :=
  [.avgDelays, .avgNumEvents, .totalQs, .simReplications] ++
    match experiment with
    | none => []
    | some experiment =>
        (if experiment.numValues + 1 ≥ experiment.simReplications then
          if isConfident then [.simActiveReplications, .areExpsSignificant, .simResultsLines]
          else [.simInitReplications, .simActiveReplications]
        else []) ++ [.replicaResults]

end SimulationMPI

open SimulationMPI

structure SetUp where
  sent : List (Job × Nat)
  accesses : List Access
  aborted : Bool
  deriving DecidableEq, Repr

structure ResumedCampaign where
  master : Master
  inFlight : List (Job × Nat)
  accesses : List Access
  aborted : Bool
  fault : Option Fault
  deriving DecidableEq, Repr

namespace ResumedCampaign

/-- The set-up of the design points from the `i`-th on; a send to a node that is not there ends
the whole campaign. -/
def prepare (args : DesArgs) (alreadyRun : Int) (nodes : Nat) :
    List Experiment → Nat → Nat → SetUp
  | [], _, _ => { sent := [], accesses := [], aborted := false }
  | experiment :: rest, i, jobs =>
      let simNum := (i + 1 + alreadyRun).toNat
      let batch := Master.firstBatch simNum jobs experiment.simInitReplications
      let accesses := (rows args simNum).map Access.row
      if batch.all fun job => job.destination < nodes then
        let later := prepare args alreadyRun nodes rest (i + 1)
          (jobs + experiment.simInitReplications)
        { sent := batch.map (fun job => (job, i)) ++ later.sent
          accesses := accesses ++ later.accesses
          aborted := later.aborted }
      else { sent := [], accesses := accesses, aborted := true }

/-- The loops of the set-up count in 16 bits and never get through more design points. -/
def start (args : CampaignArgs) (entries : List (Option Bool)) (nodes : Nat) :
    Option ResumedCampaign :=
  if runs args < 2 ^ 16 then
    let experiments := Master.setup (runs args) args.initReplications nodes
    let setUp := prepare args.toDesArgs (alreadyRun args entries) nodes experiments 0 1
    some {
      master := { experiments := experiments, idleNodes := [], lazyNodes := []
                  jobs := 1 + setUp.sent.length }
      inFlight := setUp.sent
      accesses := setUp.accesses
      aborted := setUp.aborted
      fault := none }
  else none

/-- The rows for the jobs of one round, also where a node for the first of them is missing. -/
def rowsAgain (args : DesArgs) (simulationId : Nat) (isConfident : Bool) :
    Except Fault (Master × List Job) → List Nat
  | .ok (_, sent) => sent.flatMap fun job => rows args job.simNum
  | .error .emptyNodes => if isConfident then [] else rows args simulationId
  | .error .noSuchExperiment => []

def step (args : DesArgs) (campaign : ResumedCampaign) (reply : Reply) : Option ResumedCampaign :=
  if campaign.aborted ∨ campaign.fault.isSome ∨ campaign.master.areAllSignificant then none
  else match campaign.inFlight.find? fun sent => sent.1.destination = reply.source with
    | none => none
    | some (job, point) =>
        let simulationId := toUnsigned 16 job.simNum
        let index := toUnsigned 32 (simulationId - 1)
        let result := campaign.master.receive reply.source simulationId reply.isConfident
        let accesses := campaign.accesses ++
          (touched campaign.master.experiments[index]? reply.isConfident).map
            (fun table => Access.element table index point) ++
          (rowsAgain args simulationId reply.isConfident result).map Access.row
        match result with
        | .error fault => some { campaign with accesses := accesses, fault := some fault }
        | .ok (master, sent) =>
            some { campaign with
              master := master
              inFlight := campaign.inFlight.erase (job, point) ++
                sent.map fun job => (job, point)
              accesses := accesses }

end ResumedCampaign

end RlAqs
