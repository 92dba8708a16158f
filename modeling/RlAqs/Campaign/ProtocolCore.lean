import RlAqs.Campaign.MasterCore
import Mathlib.Logic.Function.Basic

/-!
The messages between the master and the workers: jobs and kill messages under their
tags, the receive loop of `Simulation::simulate`, and the results in transit. Of the body
of a job there are the collective operations in which the workers of a group wait for one
another, where they make the graph or the arrival rates together, and whether the rest of it
comes to its end.
-/

namespace RlAqs

/-- `KILL_PILL`, which is `USHRT_MAX`. -/
def killPill : Nat := 65535

inductive Message
  | task (job : Job)
  | kill (destination : Nat)
  deriving DecidableEq, Repr

namespace Message

def destination : Message → Nat
  | task job => job.destination
  | kill destination => destination

def tag : Message → Nat
  | task job => job.tag
  | kill _ => killPill

def job? : Message → Option Job
  | task job => some job
  | kill _ => none

end Message

structure Sharing where
  graphFilename : String
  graphSingle : Bool
  mfrw : Bool
  mfrwSingle : Bool
  deriving DecidableEq, Repr

inductive Site
  | graph
  | mfrw
  deriving DecidableEq, Repr

def Sharing.shares (sharing : Sharing) : Site → Bool
  | .graph => sharing.graphFilename = "" && sharing.graphSingle
  | .mfrw => sharing.mfrw && sharing.mfrwSingle

inductive Place
  /-- Before `fs::exists`, if there is a file to look for. -/
  | looking (site : Site)
  /-- In `MPI_Allreduce`. -/
  | electing (site : Site)
  /-- In `MPI_Barrier`. -/
  | meeting (site : Site)
  | simulating
  deriving DecidableEq, Repr

def Site.next : Site → Place
  | .graph => .looking .mfrw
  | .mfrw => .simulating

structure Protocol where
  nodes : Nat
  sharing : Sharing
  /-- The colours by which `main` splits the workers into groups. -/
  colour : Nat → Nat
  /-- The body of the job comes to its end, as far as that is up to the job alone. -/
  ends : Job → Bool
  master : Master
  /-- The master has left the receive loop and sent the kill messages. -/
  killed : Bool
  /-- Messages to workers that are not received yet, in the order sent. -/
  mail : List Message
  running : List Job
  /-- For each worker, where its job is. -/
  place : Nat → Place
  /-- For each worker, the collective operations of its group that it has entered. -/
  calls : Nat → Nat
  /-- The workers that left their loop, with the message they left it for. -/
  stopped : List Message
  results : List Job
  /-- Everything sent by the master and answered by the workers so far. -/
  sent : List Job
  answered : List Job
  fault : Option Fault

inductive Event
  | receiveTask (rank : Nat)
  /-- The worker goes on in its job; `found` is what `fs::exists` answers. -/
  | advance (rank : Nat) (found : Bool)
  | sendResult (rank : Nat)
  | receiveResult (reply : Reply)
  | sendKill
  deriving DecidableEq, Repr

namespace Protocol

def start (sharing : Sharing) (colour : Nat → Nat) (ends : Job → Bool)
    (runs initReplications nodes : Nat) : Protocol :=
  let (master, sent) := Master.start runs initReplications nodes
  { nodes := nodes, sharing := sharing, colour := colour, ends := ends, master := master
    killed := false, mail := sent.map .task, running := [], place := fun _ => .looking .graph
    calls := fun _ => 0, stopped := [], results := [], sent := sent, answered := []
    fault := none }

def waits (protocol : Protocol) (rank : Nat) : Bool :=
  protocol.running.all (fun job => job.destination ≠ rank) &&
    protocol.stopped.all fun message => message.destination ≠ rank

def receiveTask (protocol : Protocol) (rank : Nat) : Option Protocol :=
  if protocol.waits rank then
    match protocol.mail.find? fun message => message.destination = rank with
    | none => none
    | some message =>
        let protocol := { protocol with mail := protocol.mail.erase message }
        if message.tag = killPill then
          some { protocol with stopped := protocol.stopped ++ [message] }
        else match message with
          | .task job =>
              some { protocol with
                running := protocol.running ++ [job]
                place := Function.update protocol.place rank (.looking .graph) }
          | .kill _ => none
  else none

def group (protocol : Protocol) (rank : Nat) : List Nat :=
  (List.range' 1 (protocol.nodes - 1)).filter fun other =>
    protocol.colour other = protocol.colour rank

/-- All of the group have entered the collective operation that the worker is in. The operations
of a group are matched in the order in which they are entered. -/
def gathered (protocol : Protocol) (rank : Nat) : Bool :=
  (protocol.group rank).all fun other => protocol.calls rank ≤ protocol.calls other

def move (protocol : Protocol) (rank : Nat) (place : Place) : Protocol :=
  { protocol with place := Function.update protocol.place rank place }

def enter (protocol : Protocol) (rank : Nat) (place : Place) : Protocol :=
  { protocol.move rank place with
    calls := Function.update protocol.calls rank (protocol.calls rank + 1) }

def advance (protocol : Protocol) (rank : Nat) (found : Bool) : Option Protocol :=
  if protocol.running.all fun job => job.destination ≠ rank then none
  else match protocol.place rank with
  | .looking site =>
      if protocol.sharing.shares site && !found then some (protocol.enter rank (.electing site))
      else some (protocol.move rank site.next)
  | .electing site =>
      if protocol.gathered rank then some (protocol.enter rank (.meeting site)) else none
  | .meeting site =>
      if protocol.gathered rank then some (protocol.move rank site.next) else none
  | .simulating => none

def sendResult (protocol : Protocol) (rank : Nat) : Option Protocol :=
  if protocol.place rank ≠ .simulating then none
  else match protocol.running.find? fun job => job.destination = rank with
  | none => none
  | some job =>
      if protocol.ends job then
        some { protocol with
          running := protocol.running.erase job
          results := protocol.results ++ [job]
          answered := protocol.answered ++ [job] }
      else none

def receiveResult (protocol : Protocol) (reply : Reply) : Option Protocol :=
  if protocol.fault.isSome ∨ protocol.killed ∨ protocol.master.areAllSignificant then none
  else match protocol.results.find? fun job => job.destination = reply.source with
    | none => none
    | some job =>
        match protocol.master.receive reply.source job.simNum reply.isConfident with
        | .error fault => some { protocol with fault := some fault }
        | .ok (master, sent) =>
            some { protocol with
              master := master
              results := protocol.results.erase job
              mail := protocol.mail ++ sent.map .task
              sent := protocol.sent ++ sent }

/-- `main` sends the kill messages when the receive loop has ended. -/
def sendKill (protocol : Protocol) : Option Protocol :=
  if protocol.fault.isSome ∨ protocol.killed ∨ ¬ protocol.master.areAllSignificant then none
  else some { protocol with
    killed := true
    mail := protocol.mail ++ (List.range' 1 (protocol.nodes - 1)).map .kill }

def step (protocol : Protocol) : Event → Option Protocol
  | .receiveTask rank => protocol.receiveTask rank
  | .advance rank found => protocol.advance rank found
  | .sendResult rank => protocol.sendResult rank
  | .receiveResult reply => protocol.receiveResult reply
  | .sendKill => protocol.sendKill

end Protocol

end RlAqs
