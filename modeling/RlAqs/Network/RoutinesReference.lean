import RlAqs.Network.NetworkCore
import Mathlib.Algebra.Order.Ring.Rat
import Mathlib.Data.List.Sort

/-! Routines that can be run and keep their contracts. -/

namespace RlAqs

namespace Routines

def takeSources (edges : List (Nat × Nat)) : Nat → List Nat → List Nat
  | 0, _ => []
  | fuel + 1, remaining =>
      match remaining.find? fun vertex =>
          edges.all fun edge => edge.2 ≠ vertex ∨ edge.1 ∉ remaining with
      | none => []
      | some vertex => vertex :: takeSources edges fuel (remaining.erase vertex)

def TopologicalOrder (size : Nat) (edges : List (Nat × Nat)) (order : List Nat) : Prop :=
  order.Perm (List.range size) ∧ ∀ edge ∈ edges, order.idxOf edge.1 < order.idxOf edge.2

instance (size : Nat) (edges : List (Nat × Nat)) (order : List Nat) :
    Decidable (TopologicalOrder size edges order) :=
  inferInstanceAs (Decidable (_ ∧ _))

def topologicalOrder (size : Nat) (edges : List (Nat × Nat)) : Option (List Nat) :=
  let order := takeSources edges size (List.range size)
  if TopologicalOrder size edges order then some order else none

theorem topologicalOrder_valid {size : Nat} {edges : List (Nat × Nat)} {order : List Nat}
    (found : topologicalOrder size edges = some order) : TopologicalOrder size edges order := by
  simp only [topologicalOrder] at found
  split at found
  · rename_i valid
    simp only [Option.some.injEq] at found
    exact found ▸ valid
  · cases found

/-- Depth first search; `path` is grey, the first component of the state black. -/
def search (edges : List (Nat × Nat)) :
    Nat → List Nat → Nat → List Nat × List (Nat × Nat) → List Nat × List (Nat × Nat)
  | 0, _, _, state => state
  | fuel + 1, path, vertex, state =>
      let after := (edges.filter fun edge => edge.1 = vertex).foldl (fun state edge =>
        if edge.2 ∈ vertex :: path then (state.1, state.2 ++ [edge])
        else if edge.2 ∈ state.1 then state
        else search edges fuel (vertex :: path) edge.2 state) state
      (after.1 ++ [vertex], after.2)

def depthFirstBackEdges (size : Nat) (edges : List (Nat × Nat)) : List (Nat × Nat) :=
  ((List.range size).foldl (fun state vertex =>
    if vertex ∈ state.1 then state else search edges size [] vertex state) ([], [])).2

def reference : Routines where
  sort rate vertices := vertices.insertionSort fun first second => rate second ≤ rate first
  sort_perm _ vertices := vertices.perm_insertionSort _
  sort_descending rate vertices := by
    have total : Std.Total fun first second => rate second ≤ rate first :=
      ⟨fun first second => le_total (rate second) (rate first)⟩
    have trans : IsTrans Nat fun first second => rate second ≤ rate first :=
      ⟨fun _ _ _ left right => le_trans right left⟩
    exact vertices.pairwise_insertionSort _
  outOrder edges := edges
  outOrder_perm edges := List.Perm.refl edges
  breadthFirstVisit := Reach.reachable
  discovered_nodup := Reach.reachable_nodup
  mem_discovered := Reach.mem_reachable
  topologicalSort := topologicalOrder
  topological_perm _ _ _ found := (topologicalOrder_valid found).1
  topological_forward _ _ _ found := (topologicalOrder_valid found).2
  backEdges := depthFirstBackEdges

end Routines

end RlAqs
