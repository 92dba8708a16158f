import Mathlib.Logic.Function.Basic
import Mathlib.Data.List.Basic

/-!
The part of `Simulation::simulate` in which the workers of a group agree on one graph: the first
of them to have a rank generates it and serialises it to the repository, and all others read it
from there. A rank is anywhere between two of its operations when another one goes on.
-/

namespace RlAqs

inductive File (α : Type*)
  | absent
  /-- Created, but not written to the end. -/
  | begun
  | complete (graph : α)
  deriving DecidableEq

/-- Where a worker stands. Its graph is made of the parts that have been put into it so far. -/
inductive Phase (α : Type*)
  /-- Before `fs::exists`. -/
  | checking
  /-- In `MPI_Allreduce`. -/
  | electing
  /-- The worker has the minimum rank. -/
  | creating
  /-- In `GraphUtil::print`. -/
  | writing (graph : α)
  /-- In `MPI_Barrier`. -/
  | meeting (parts : List α)
  /-- Before `GraphUtil::read`, after the collective operations or without them. -/
  | reading (joined : Bool) (parts : List α)
  /-- With the graph as it is once the file is read, unless the file was not complete. -/
  | finished (joined : Bool) (parts : Option (List α))
  deriving DecidableEq

namespace Phase

variable {α : Type*}

def joined : Phase α → Bool
  | checking => false
  | electing => true
  | creating => true
  | writing _ => true
  | meeting _ => true
  | reading joined _ => joined
  | finished joined _ => joined

def met : Phase α → Bool
  | checking => false
  | electing => false
  | creating => false
  | writing _ => false
  | meeting _ => true
  | reading joined _ => joined
  | finished joined _ => joined

def isFinished : Phase α → Bool
  | finished _ _ => true
  | _ => false

end Phase

structure Layout (F : Type*) where
  workers : List Nat
  nodup : workers.Nodup
  colour : Nat → Nat
  file : Nat → F

namespace Layout

variable {F : Type*}

def group (layout : Layout F) (rank : Nat) : List Nat :=
  layout.workers.filter fun other => layout.colour other = layout.colour rank

/-- The outcome of `MPI_Allreduce` with `MPI_MIN`. -/
def IsMinRank (layout : Layout F) (rank : Nat) : Prop := ∀ other ∈ layout.group rank, rank ≤ other

instance (layout : Layout F) (rank : Nat) : Decidable (layout.IsMinRank rank) :=
  inferInstanceAs (Decidable (∀ other ∈ layout.group rank, rank ≤ other))

end Layout

structure Repository (F α : Type*) where
  phase : Nat → Phase α
  disk : F → File α
  /-- The workers that generated a graph, each with it, newest first. -/
  generated : List (Nat × α)

namespace Repository

variable {F α : Type*} [DecidableEq F]

def start (disk : F → File α) : Repository F α where
  phase := fun _ => .checking
  disk := disk
  generated := []

def read : File α → Option α
  | .complete graph => some graph
  | _ => none

/-- `GraphUtil::read`, which adds the vertices and edges of the file to the graph. -/
def readInto (parts : List α) (file : File α) : Option (List α) :=
  (read file).map fun graph => parts ++ [graph]

def move (repository : Repository F α) (rank : Nat) (phase : Phase α) : Repository F α :=
  { repository with phase := Function.update repository.phase rank phase }

/-- A worker goes on, with the graph it generates if it has to; a worker in a collective operation
waits until its group has entered it. -/
def step (layout : Layout F) (repository : Repository F α) (turn : Nat × α) :
    Option (Repository F α) :=
  let (rank, graph) := turn
  let file := layout.file rank
  if rank ∉ layout.workers then none
  else match repository.phase rank with
  | .checking =>
      match repository.disk file with
      | .absent => some (repository.move rank .electing)
      | _ => some (repository.move rank (.reading false []))
  | .electing =>
      if ∀ other ∈ layout.group rank, (repository.phase other).joined = true then
        if layout.IsMinRank rank then some (repository.move rank .creating)
        else some (repository.move rank (.meeting []))
      else none
  | .creating =>
      some { repository.move rank (.writing graph) with
        disk := Function.update repository.disk file .begun
        generated := (rank, graph) :: repository.generated }
  | .writing graph =>
      some { repository.move rank (.meeting [graph]) with
        disk := Function.update repository.disk file (.complete graph) }
  | .meeting parts =>
      if ∀ other ∈ layout.group rank, (repository.phase other).met = true then
        some (repository.move rank (.reading true parts))
      else none
  | .reading joined parts =>
      some (repository.move rank (.finished joined (readInto parts (repository.disk file))))
  | .finished _ _ => none

end Repository

end RlAqs
