import Mathlib.Data.List.Basic

/-! The directed graph of `DirectedGraph.hh`, without its properties. -/

namespace RlAqs

structure Graph where
  size : Nat
  /-- Source and target of the edges, in the order they were added. -/
  edges : List (Nat × Nat)
  inside : ∀ edge ∈ edges, edge.1 < size ∧ edge.2 < size

namespace Graph

def point : Graph where
  size := 1
  edges := []
  inside := List.forall_mem_nil _

def HasEdge (graph : Graph) (source target : Int) : Prop :=
  ∃ edge ∈ graph.edges, (edge.1 : Int) = source ∧ (edge.2 : Int) = target

instance (graph : Graph) (source target : Int) : Decidable (graph.HasEdge source target) :=
  inferInstanceAs (Decidable (∃ edge ∈ graph.edges, _))

def outDegree (graph : Graph) (vertex : Int) : Nat :=
  graph.edges.countP fun edge => (edge.1 : Int) = vertex

def sources (graph : Graph) (vertex : Int) : List Int :=
  (graph.edges.filter fun edge => (edge.2 : Int) = vertex).map fun edge => (edge.1 : Int)

end Graph

end RlAqs
