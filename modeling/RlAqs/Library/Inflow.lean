import Mathlib.Algebra.BigOperators.Group.List.Basic
import Mathlib.Algebra.BigOperators.Ring.List
import Mathlib.Algebra.Order.BigOperators.Group.List
import Mathlib.Algebra.Order.Ring.Defs
import Mathlib.Tactic.Ring

/-!
What the vertices of a weighted graph receive: every edge carries a factor of the strength
at its source to its target.
-/

namespace Inflow

variable {V K : Type*} [DecidableEq V] [CommRing K]

def inflow (edges : List (V × V)) (factor : V × V → K) (strength : V → K) (target : V) : K :=
  ((edges.filter fun edge => edge.2 = target).map fun edge => factor edge * strength edge.1).sum

def spread (edges : List (V × V)) (factor : V × V → K) (amount : K) (target : V) : K :=
  ((edges.filter fun edge => edge.2 = target).map fun edge => amount * factor edge).sum

variable {edges : List (V × V)} {factor : V × V → K} {target : V}

@[simp] theorem inflow_nil (strength : V → K) : inflow [] factor strength target = 0 := rfl

theorem inflow_cons (edge : V × V) (strength : V → K) :
    inflow (edge :: edges) factor strength target =
      (if edge.2 = target then factor edge * strength edge.1 else 0) +
        inflow edges factor strength target := by
  by_cases same : edge.2 = target <;> simp [inflow, same]

theorem inflow_append (more : List (V × V)) (strength : V → K) :
    inflow (edges ++ more) factor strength target =
      inflow edges factor strength target + inflow more factor strength target := by
  simp [inflow]

theorem inflow_congr {other : V × V → K} {first second : V → K}
    (same : ∀ edge ∈ edges, edge.2 = target → factor edge * first edge.1 =
      other edge * second edge.1) :
    inflow edges factor first target = inflow edges other second target := by
  unfold inflow
  congr 1
  apply List.map_congr_left
  intro edge member
  simp only [List.mem_filter, decide_eq_true_eq] at member
  exact same edge member.1 member.2

theorem inflow_add (first second : V → K) :
    inflow edges factor (fun vertex => first vertex + second vertex) target =
      inflow edges factor first target + inflow edges factor second target := by
  simp only [inflow, mul_add, List.sum_map_add]

theorem mul_inflow (scale : K) (strength : V → K) :
    scale * inflow edges factor strength target =
      inflow edges factor (fun vertex => scale * strength vertex) target := by
  simp only [inflow, ← List.sum_map_mul_left, mul_left_comm]

theorem inflow_zero (strength : V → K)
    (zero : ∀ edge ∈ edges, edge.2 = target → factor edge * strength edge.1 = 0) :
    inflow edges factor strength target = 0 := by
  apply List.sum_eq_zero
  intro term member
  obtain ⟨edge, inside, rfl⟩ := List.mem_map.mp member
  simp only [List.mem_filter, decide_eq_true_eq] at inside
  exact zero edge inside.1 inside.2

@[simp] theorem spread_nil (amount : K) : spread [] factor amount target = 0 := rfl

theorem spread_cons (edge : V × V) (amount : K) :
    spread (edge :: edges) factor amount target =
      (if edge.2 = target then amount * factor edge else 0) +
        spread edges factor amount target := by
  by_cases same : edge.2 = target <;> simp [spread, same]

theorem spread_perm {others : List (V × V)} (perm : edges.Perm others) (amount : K) :
    spread edges factor amount target = spread others factor amount target :=
  ((perm.filter _).map _).sum_eq

theorem inflow_single (source : V) (amount : K) :
    inflow edges factor (fun vertex => if vertex = source then amount else 0) target =
      spread (edges.filter fun edge => edge.1 = source) factor amount target := by
  induction edges with
  | nil => simp
  | cons edge rest ih =>
      rw [inflow_cons, ih]
      by_cases leaves : edge.1 = source
      · simp only [List.filter_cons, leaves, decide_true, if_true, spread_cons]
        rw [mul_comm]
      · simp only [List.filter_cons, leaves, decide_false, if_false, mul_zero, ite_self, zero_add]
        rfl

theorem mul_spread (scale amount : K) :
    scale * spread edges factor amount target = spread edges factor (scale * amount) target := by
  rw [spread, spread, ← List.sum_map_mul_left]
  simp only [mul_assoc]

variable [LinearOrder K] [IsStrictOrderedRing K]

theorem spread_nonneg (positive : ∀ edge ∈ edges, 0 < factor edge) {amount : K}
    (nonneg : 0 ≤ amount) : 0 ≤ spread edges factor amount target := by
  apply List.sum_nonneg
  intro term member
  obtain ⟨edge, inside, rfl⟩ := List.mem_map.mp member
  exact mul_nonneg nonneg (positive edge (List.mem_of_mem_filter inside)).le

theorem spread_pos (positive : ∀ edge ∈ edges, 0 < factor edge) {amount : K}
    (gained : 0 < amount) {edge : V × V} (member : edge ∈ edges) :
    0 < spread edges factor amount edge.2 := by
  induction edges with
  | nil => simp at member
  | cons first rest ih =>
      have later : ∀ other ∈ rest, 0 < factor other :=
        fun other inside => positive other (List.mem_cons_of_mem _ inside)
      rw [spread_cons]
      rcases List.mem_cons.mp member with same | inside
      · rw [if_pos (by rw [same])]
        exact add_pos_of_pos_of_nonneg (mul_pos gained (positive first (by simp)))
          (spread_nonneg later gained.le)
      · have rest_pos := ih later inside
        split
        · exact add_pos (mul_pos gained (positive first (by simp))) rest_pos
        · rw [zero_add]
          exact rest_pos

end Inflow
