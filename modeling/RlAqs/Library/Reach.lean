import Mathlib.Data.List.Nodup
import Mathlib.Logic.Relation

/-! The vertices that can be reached along the edges of a list, each listed once. -/

namespace Reach

variable {V : Type*} [DecidableEq V]

def Edge (edges : List (V × V)) (source target : V) : Prop := (source, target) ∈ edges

/-- Adds the target of an edge that leaves the list, as long as there is one. -/
def grow (edges : List (V × V)) : Nat → List V → List V
  | 0, seen => seen
  | fuel + 1, seen =>
      match edges.find? fun edge => edge.1 ∈ seen ∧ edge.2 ∉ seen with
      | none => seen
      | some edge => grow edges fuel (seen ++ [edge.2])

def reachable (edges : List (V × V)) (root : V) : List V := grow edges edges.length [root]

def missing (edges : List (V × V)) (seen : List V) : Nat :=
  edges.countP fun edge => edge.2 ∉ seen

theorem grow_nodup (edges : List (V × V)) {fuel : Nat} {seen : List V} (simple : seen.Nodup) :
    (grow edges fuel seen).Nodup := by
  induction fuel generalizing seen with
  | zero => exact simple
  | succ fuel ih =>
      simp only [grow]
      split
      · exact simple
      · rename_i edge found
        have leaves := List.find?_some found
        simp only [decide_eq_true_eq] at leaves
        have longer : (seen ++ [edge.2]).Nodup := by
          simpa using List.Nodup.concat leaves.2 simple
        exact ih longer

theorem grow_sound (edges : List (V × V)) {root : V} {fuel : Nat} {seen : List V}
    (sound : ∀ vertex ∈ seen, Relation.ReflTransGen (Edge edges) root vertex) :
    ∀ vertex ∈ grow edges fuel seen, Relation.ReflTransGen (Edge edges) root vertex := by
  induction fuel generalizing seen with
  | zero => exact sound
  | succ fuel ih =>
      simp only [grow]
      split
      · exact sound
      · rename_i edge found
        have leaves := List.find?_some found
        simp only [decide_eq_true_eq] at leaves
        apply ih
        intro vertex member
        rcases List.mem_append.mp member with old | new
        · exact sound vertex old
        · rw [List.mem_singleton.mp new]
          exact (sound edge.1 leaves.1).tail (List.mem_of_find?_eq_some found)

theorem subset_grow (edges : List (V × V)) (fuel : Nat) (seen : List V) :
    seen ⊆ grow edges fuel seen := by
  induction fuel generalizing seen with
  | zero => exact List.Subset.refl seen
  | succ fuel ih =>
      simp only [grow]
      split
      · exact List.Subset.refl seen
      · exact fun vertex member => ih _ (List.mem_append_left _ member)

theorem missing_lt {edges : List (V × V)} {seen : List V} {edge : V × V}
    (member : edge ∈ edges) (fresh : edge.2 ∉ seen) :
    missing edges (seen ++ [edge.2]) < missing edges seen := by
  unfold missing
  induction edges with
  | nil => simp at member
  | cons first rest ih =>
      have fewer : (rest.countP fun other => other.2 ∉ seen ++ [edge.2]) ≤
          rest.countP fun other => other.2 ∉ seen := by
        apply List.countP_mono_left
        intro other _ out
        simp only [List.mem_append, List.mem_singleton, decide_eq_true_eq] at out ⊢
        exact fun inside => out (Or.inl inside)
      rcases List.mem_cons.mp member with same | later
      · subst same
        simp only [List.countP_cons, List.mem_append, List.mem_singleton, or_true,
          not_true_eq_false, decide_false, fresh, not_false_eq_true, decide_true]
        simp only [Bool.false_eq_true, if_false, if_true]
        simp only [List.mem_append, List.mem_singleton] at fewer
        omega
      · have less := ih later
        simp only [List.countP_cons, List.mem_append, List.mem_singleton] at less ⊢
        by_cases inside : first.2 ∈ seen
        · simp only [inside, true_or, not_true_eq_false, decide_false]
          omega
        · simp only [inside, false_or, not_false_eq_true, decide_true, if_true]
          split <;> omega

theorem grow_closed {edges : List (V × V)} {fuel : Nat} {seen : List V}
    (enough : missing edges seen ≤ fuel) {edge : V × V} (member : edge ∈ edges)
    (inside : edge.1 ∈ grow edges fuel seen) : edge.2 ∈ grow edges fuel seen := by
  induction fuel generalizing seen with
  | zero =>
      have all := List.countP_eq_zero.mp (Nat.le_zero.mp enough) edge member
      simpa [grow] using all
  | succ fuel ih =>
      simp only [grow] at inside ⊢
      split at inside
      · rename_i closed
        have held := List.find?_eq_none.mp closed edge member
        simp only [decide_eq_true_eq, not_and, Decidable.not_not] at held
        exact held inside
      · rename_i edge' found
        have leaves := List.find?_some found
        simp only [decide_eq_true_eq] at leaves
        have less := missing_lt (List.mem_of_find?_eq_some found) leaves.2
        exact ih (by omega) inside

theorem grow_length (edges : List (V × V)) (fuel : Nat) (seen : List V) :
    (grow edges fuel seen).length ≤ seen.length + fuel := by
  induction fuel generalizing seen with
  | zero => exact Nat.le_refl _
  | succ fuel ih =>
      simp only [grow]
      split
      · omega
      · rename_i edge found
        have longer := ih (seen ++ [edge.2])
        rw [List.length_append, List.length_singleton] at longer
        omega

theorem reachable_length (edges : List (V × V)) (root : V) :
    (reachable edges root).length ≤ edges.length + 1 := by
  have bound := grow_length edges edges.length [root]
  rw [List.length_singleton, Nat.add_comm] at bound
  exact bound

theorem reachable_nodup (edges : List (V × V)) (root : V) : (reachable edges root).Nodup :=
  grow_nodup edges (List.nodup_singleton root)

theorem mem_reachable (edges : List (V × V)) (root vertex : V) :
    vertex ∈ reachable edges root ↔ Relation.ReflTransGen (Edge edges) root vertex := by
  constructor
  · apply grow_sound edges
    intro vertex member
    rw [List.mem_singleton.mp member]
  · intro path
    induction path with
    | refl => exact subset_grow edges _ _ (List.mem_singleton.mpr rfl)
    | tail _ edge ih => exact grow_closed (List.countP_le_length) edge ih

end Reach
