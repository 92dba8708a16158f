import RlAqs.Library.DepthFirst
import RlAqs.Library.PathSums
import RlAqs.Network.EpidemicSpread
import RlAqs.Network.RoutinesReference

/-!
`epidemic_visit` on a graph without cycles: it ends, and the strength a vertex gains is the rate at
the root times the sum over all paths that lead there.
-/

namespace RlAqs

open Inflow

namespace Network

/-- Without cycles the edges descend in the number of vertices that can be reached. -/
theorem descends_reachable {network : Network} (acyclic : Reach.Acyclic network.edges) :
    network.Descends fun vertex => (Reach.reachable network.edges vertex).length :=
  fun _ member => Reach.reachable_length_lt acyclic member

theorem Reaches.lower {network : Network} {rank : Nat → Nat} (descends : network.Descends rank)
    {root vertex : Nat} (path : network.Reaches root vertex) : rank vertex ≤ rank root := by
  induction path with
  | refl => exact Nat.le_refl _
  | tail _ edge ih => exact (descends _ edge).le.trans ih

end Network

section Paths

variable {network : Network} {root : Nat}

/-- However the out-edges are ordered and often a vertex is queued, what arrives at a vertex is the
sum over the paths to it; all of it is passed on. -/
theorem epidemicVisit_paths (routines : Routines) (settings : Settings)
    (acyclic : Reach.Acyclic network.edges) (inside : root < network.size)
    (indexed : network.Indexed)
    (positive : ∀ edge ∈ network.edges, 0 < edgeFactor settings network edge)
    (arrivals : 0 < settings.boostArrival * network.arrivalRate root) :
    ∃ least final,
      (∀ fuel ≥ least, (epidemicVertexArrivalVisitor settings network).epidemicVisit
        (network.outEdges routines) fuel root Strengths.zero = some final) ∧
      (∀ vertex, final.apply vertex = 0) ∧
      ∀ target, ∃ paths : Finset (List (Nat × Nat)),
        (∀ path, path ∈ paths ↔ Path network.edges root target path ∧ path ≠ []) ∧
        final.diff target = settings.boostArrival * network.arrivalRate root *
          ∑ path ∈ paths, (path.map (edgeFactor settings network)).prod := by
  have descends := Network.descends_reachable acyclic
  obtain ⟨final, visited⟩ := @epidemicVisit_total routines settings network _ root descends _ le_rfl
  obtain ⟨flowing, applied⟩ := epidemicVisit_ended inside indexed descends positive
    (.inl (signed_root inside indexed positive arrivals.ne')) visited
  let rank := fun vertex => (Reach.reachable network.edges vertex).length
  have falls : ∀ edge ∈ network.edges, rank edge.2 < rank edge.1 := descends
  have below : ∀ vertex, final.diff vertex ≠ 0 → rank vertex ≤ rank root :=
    fun vertex gained => (flowing.spreads vertex gained).lower descends
  refine ⟨_, final, fun fuel enough => Worklist.drain_more visited enough, applied, fun target => ?_⟩
  have enough : rank root ≤ rank target + rank root := Nat.le_add_left _ _
  refine ⟨(arriving network.edges (paths network.edges root (rank root)) target).toFinset,
    fun path => ?_, ?_⟩
  · rw [List.mem_toFinset]
    exact mem_arriving_paths falls enough
  · rw [List.sum_toFinset _ (arriving_nodup network.simple (paths_nodup network.simple _))]
    exact response_paths falls (flowing.response applied) below (rank root) target enough

end Paths

def diamond : Network where
  size := 4
  edges := [(0, 1), (0, 2), (1, 3), (2, 3)]
  inside := by decide
  simple := by decide
  vertexIndex := id
  arrivalRate _ := 1
  serviceRate _ := 1
  edgeWeight _ := 0
  edgeIndex _ := 0

def halved : Settings where
  fixedEdgeWeight := 1 / 2
  maxArrivalRate := 1
  boostArrival := 1
  boostEdge := 1
  maxEdges := 2

theorem epidemicVisit_diamond :
    ∃ least final,
      (∀ fuel ≥ least, (epidemicVertexArrivalVisitor halved diamond).epidemicVisit
        (diamond.outEdges Routines.reference) fuel 0 Strengths.zero = some final) ∧
      (∀ vertex, final.apply vertex = 0) ∧
      ∀ target, ∃ paths : Finset (List (Nat × Nat)),
        (∀ path, path ∈ paths ↔ Path diamond.edges 0 target path ∧ path ≠ []) ∧
        final.diff target = 1 * ∑ path ∈ paths, (path.map (edgeFactor halved diamond)).prod := by
  have factor : ∀ edge, edgeFactor halved diamond edge = 1 / 2 := fun edge => by
    rw [edgeFactor, if_pos (by decide +kernel)]
    rfl
  have rates : halved.boostArrival * diamond.arrivalRate 0 = 1 := one_mul 1
  have visited := @epidemicVisit_paths diamond 0 Routines.reference halved
    (Reach.acyclic_of_rank (fun vertex => 3 - vertex) (by decide)) (by decide) (fun _ _ => rfl)
    (fun edge _ => by rw [factor]; decide +kernel) (by rw [rates]; exact one_pos)
  rwa [rates] at visited

end RlAqs
