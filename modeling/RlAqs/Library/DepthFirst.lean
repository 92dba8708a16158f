import RlAqs.Library.Reach
import Mathlib.Data.List.Perm.Subperm

/-!
A depth-first search by its times. A vertex is white before it is discovered, grey until it is
finished and black from then on; an edge is a back edge if its target is grey when the edge is
examined. What is left without the back edges has no cycle.
-/

namespace DepthFirst

variable {V : Type*}

/-- The times of a search that has seen every edge and reported the edges in `back`. -/
structure Search (edges back : List (V × V)) where
  discover : V → Nat
  finish : V → Nat
  examine : V × V → Nat
  /-- The edges of a vertex are examined while it is grey. -/
  during : ∀ edge ∈ edges, discover edge.1 < examine edge ∧ examine edge < finish edge.1
  /-- A white target is visited before the search goes on with the source. -/
  visited : ∀ edge ∈ edges, examine edge ≤ discover edge.2 → discover edge.2 < finish edge.1
  /-- What is discovered while a vertex is grey is finished before it. -/
  nested : ∀ first second, discover first < discover second → discover second < finish first →
    finish second < finish first
  back_iff : ∀ edge ∈ edges,
    edge ∈ back ↔ discover edge.2 < examine edge ∧ examine edge < finish edge.2

variable {edges back : List (V × V)}

theorem Search.finish_lt (search : Search edges back) {edge : V × V} (member : edge ∈ edges)
    (kept : edge ∉ back) : search.finish edge.2 < search.finish edge.1 := by
  obtain ⟨after, before⟩ := search.during edge member
  rw [search.back_iff edge member, not_and, Nat.not_lt] at kept
  rcases Nat.lt_or_ge (search.discover edge.2) (search.examine edge) with seen | white
  · have black := kept seen
    omega
  · exact search.nested edge.1 edge.2 (by omega) (search.visited edge member white)

end DepthFirst

namespace Reach

variable {V : Type*} {edges : List (V × V)}

def Acyclic (edges : List (V × V)) : Prop :=
  ∀ vertex, ¬Relation.TransGen (Edge edges) vertex vertex

theorem acyclic_of_rank (rank : V → Nat) (descends : ∀ edge ∈ edges, rank edge.2 < rank edge.1) :
    Acyclic edges := by
  have lower : ∀ source target, Relation.TransGen (Edge edges) source target →
      rank target < rank source := by
    intro source target path
    induction path with
    | single edge => exact descends _ edge
    | tail _ edge ih => exact Nat.lt_trans (descends _ edge) ih
  exact fun vertex cycle => Nat.lt_irrefl _ (lower vertex vertex cycle)

theorem reachable_length_lt [DecidableEq V] (acyclic : Acyclic edges) {edge : V × V}
    (member : edge ∈ edges) :
    (reachable edges edge.2).length < (reachable edges edge.1).length := by
  have outside : edge.1 ∉ reachable edges edge.2 := by
    rw [mem_reachable]
    exact fun back => acyclic edge.1 (.head' member back)
  have simple : (edge.1 :: reachable edges edge.2).Nodup :=
    List.nodup_cons.mpr ⟨outside, reachable_nodup edges edge.2⟩
  have inside : edge.1 :: reachable edges edge.2 ⊆ reachable edges edge.1 := by
    intro vertex listed
    rw [mem_reachable]
    rcases List.mem_cons.mp listed with rfl | later
    · exact .refl
    · exact .head member ((mem_reachable edges _ _).mp later)
  exact (List.subperm_of_subset simple inside).length_le

end Reach
