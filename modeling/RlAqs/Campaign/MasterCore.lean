import Mathlib.Algebra.Group.Int.Defs
import Mathlib.Algebra.Group.Nat.Defs
import Mathlib.Data.List.Basic

/-!
The master of `SimulationMPI::simulate`: the replication counters of the
experiments, the idle and lazy nodes, and the jobs it sends. Node stacks are
written with the node that `back` gives first. The counters of jobs and
replications are natural numbers; `freeNodes` is a `uint16_t`, and the sizes in
the formula for the next batch are `size_t`.
-/

namespace RlAqs

structure Experiment where
  simReplications : Nat
  simInitReplications : Nat
  simActiveReplications : Nat
  numValues : Nat
  isSignificant : Bool
  deriving DecidableEq, Repr, Inhabited

structure Job where
  destination : Nat
  tag : Nat
  simNum : Nat
  repNum : Int
  deriving DecidableEq, Repr

inductive Fault
  | emptyNodes
  | noSuchExperiment
  deriving DecidableEq, Repr

structure Master where
  experiments : List Experiment
  idleNodes : List Nat
  lazyNodes : List Nat
  jobs : Nat
  deriving DecidableEq, Repr

namespace Experiment

def fresh (initReplications : Nat) : Experiment where
  simReplications := initReplications
  simInitReplications := initReplications
  simActiveReplications := initReplications
  numValues := 0
  isSignificant := false

/-- One more replication, on a node that no experiment was given. -/
def grow (experiment : Experiment) : Experiment :=
  { experiment with
    simReplications := experiment.simReplications + 1
    simInitReplications := experiment.simInitReplications + 1
    simActiveReplications := experiment.simActiveReplications + 1 }

end Experiment

namespace Master

/-- `nodes - (runs * init_replications + 1)` as a `uint16_t`. -/
def freeNodes (runs initReplications nodes : Nat) : Nat :=
  (((nodes : Int) - (runs * initReplications + 1)) % 2 ^ 16).toNat

def distribute (runs freeNodes : Nat) (experiments : List Experiment) : List Experiment :=
  (List.range freeNodes).foldl (fun experiments i => experiments.modify (i % runs) .grow)
    experiments

def setup (runs initReplications nodes : Nat) : List Experiment :=
  distribute runs (freeNodes runs initReplications nodes)
    (List.replicate runs (Experiment.fresh initReplications))

def firstBatch (simNum jobs count : Nat) : List Job :=
  (List.range count).map fun i =>
    { destination := jobs + i, tag := jobs + i, simNum := simNum, repNum := i + 1 }

def initialJobs : List Experiment → Nat → Nat → List Job
  | [], _, _ => []
  | experiment :: rest, simNum, jobs =>
      firstBatch simNum jobs experiment.simInitReplications ++
        initialJobs rest (simNum + 1) (jobs + experiment.simInitReplications)

def start (runs initReplications nodes : Nat) : Master × List Job :=
  let experiments := setup runs initReplications nodes
  let sent := initialJobs experiments 1 1
  ({ experiments := experiments, idleNodes := [], lazyNodes := [], jobs := 1 + sent.length }, sent)

def areAllSignificant (master : Master) : Bool :=
  master.experiments.all fun experiment => experiment.isSignificant

/-- One of the two loops that allocate more jobs: `count` jobs go to the last nodes. -/
def allocate (simNum numValues : Nat) :
    Nat → Int → Nat → List Nat → Except Fault (List Job × List Nat)
  | 0, _, _, nodes => .ok ([], nodes)
  | _ + 1, _, _, [] => .error .emptyNodes
  | count + 1, i, jobs, destination :: nodes => do
      let (sent, left) ← allocate simNum numValues count (i + 1) (jobs + 1) nodes
      .ok ({ destination := destination, tag := jobs, simNum := simNum,
             repNum := numValues + 1 + i } :: sent, left)

def sizeSub (a b : Nat) : Nat := if b ≤ a then a - b else 2 ^ 64 - (b - a)

def moreJobs (experiment : Experiment) (idle lazy : Nat) : Nat :=
  if experiment.simInitReplications > idle then idle
  else experiment.simActiveReplications + lazy

/-- The branch for an experiment that is not confident: more jobs, to idle nodes and then to
all lazy ones. -/
def reallocate (master : Master) (index : Nat) (experiment : Experiment) :
    Except Fault (Master × List Job) := do
  let more := moreJobs experiment master.idleNodes.length master.lazyNodes.length
  let lazy := master.lazyNodes.length
  let (first, idleNodes) ← allocate (index + 1) experiment.numValues
    (sizeSub more lazy) 0 master.jobs master.idleNodes
  let (second, lazyNodes) ← allocate (index + 1) experiment.numValues
    ((more : Int) - ((more : Int) - lazy)).toNat ((more : Int) - lazy)
    (master.jobs + first.length) master.lazyNodes
  let sent := first ++ second
  .ok ({ experiments := master.experiments.set index { experiment with
           simActiveReplications := more
           simReplications := experiment.simReplications + sent.length }
         idleNodes := idleNodes
         lazyNodes := lazyNodes
         jobs := master.jobs + sent.length }, sent)

def transfer : Nat → List Nat → List Nat → Except Fault (List Nat × List Nat)
  | 0, idleNodes, lazyNodes => .ok (idleNodes, lazyNodes)
  | _ + 1, [], _ => .error .emptyNodes
  | count + 1, node :: idleNodes, lazyNodes => transfer count idleNodes (node :: lazyNodes)

def retire (master : Master) (index : Nat) (experiment : Experiment) :
    Except Fault (Master × List Job) := do
  let (idleNodes, lazyNodes) ← transfer experiment.simActiveReplications
    master.idleNodes master.lazyNodes
  .ok ({ master with
         experiments := master.experiments.set index { experiment with isSignificant := true }
         idleNodes := idleNodes
         lazyNodes := lazyNodes }, [])

/-- One round of the receive loop, with the verdict of the confidence tests, which only
counts when all replications of the experiment have been received. -/
def receive (master : Master) (source simulationId : Nat) (isConfident : Bool) :
    Except Fault (Master × List Job) :=
  match simulationId with
  | 0 => .error .noSuchExperiment
  | index + 1 =>
      match master.experiments[index]? with
      | none => .error .noSuchExperiment
      | some experiment =>
          let experiment := { experiment with numValues := experiment.numValues + 1 }
          let master := { master with
            idleNodes := source :: master.idleNodes
            experiments := master.experiments.set index experiment }
          if experiment.numValues ≥ experiment.simReplications then
            if isConfident then master.retire index experiment
            else master.reallocate index experiment
          else .ok (master, [])

end Master

structure Campaign where
  master : Master
  inFlight : List Job
  issued : List (Nat × Int)
  fault : Option Fault
  deriving DecidableEq, Repr

structure Reply where
  source : Nat
  isConfident : Bool
  deriving DecidableEq, Repr

namespace Campaign

def start (runs initReplications nodes : Nat) : Campaign :=
  let (master, sent) := Master.start runs initReplications nodes
  { master := master
    inFlight := sent
    issued := sent.map fun job => (job.simNum, job.repNum)
    fault := none }

/-- Any worker with a job in flight may answer while the receive loop runs. -/
def step (campaign : Campaign) (reply : Reply) : Option Campaign :=
  if campaign.fault.isSome ∨ campaign.master.areAllSignificant then none
  else match campaign.inFlight.find? fun job => job.destination = reply.source with
    | none => none
    | some job =>
        match campaign.master.receive reply.source job.simNum reply.isConfident with
        | .error fault => some { campaign with fault := some fault }
        | .ok (master, sent) =>
            some { campaign with
              master := master
              inFlight := campaign.inFlight.erase job ++ sent
              issued := campaign.issued ++ sent.map fun job => (job.simNum, job.repNum) }

end Campaign

end RlAqs
