import RlAqs.Library.Inflow
import Mathlib.Algebra.BigOperators.Group.Finset.Basic

/-!
The paths of a graph whose edges descend, and the sum over them of the product of the factors of
their edges. It solves the equations of the inflow.
-/

namespace Inflow

variable {V K : Type*}

inductive Path (edges : List (V × V)) (source : V) : V → List (V × V) → Prop
  | nil : Path edges source source []
  | snoc {middle target path} : Path edges source middle path → (middle, target) ∈ edges →
      Path edges source target (path ++ [(middle, target)])

variable [DecidableEq V]

def arriving (edges : List (V × V)) (before : V → List (List (V × V))) (target : V) :
    List (List (V × V)) :=
  (edges.filter fun edge => edge.2 = target).flatMap fun edge =>
    (before edge.1).map fun path => path ++ [edge]

def paths (edges : List (V × V)) (source : V) : Nat → V → List (List (V × V))
  | 0, target => if target = source then [[]] else []
  | count + 1, target =>
      (if target = source then [[]] else []) ++ arriving edges (paths edges source count) target

variable {edges : List (V × V)} {source target : V}

theorem mem_arriving {before : V → List (List (V × V))} {path : List (V × V)} :
    path ∈ arriving edges before target ↔
      ∃ middle start, (middle, target) ∈ edges ∧ start ∈ before middle ∧
        path = start ++ [(middle, target)] := by
  simp only [arriving, List.mem_flatMap, List.mem_filter, List.mem_map, decide_eq_true_eq]
  constructor
  · rintro ⟨⟨middle, last⟩, ⟨member, rfl⟩, start, found, rfl⟩
    exact ⟨middle, start, member, found, rfl⟩
  · rintro ⟨middle, start, member, found, rfl⟩
    exact ⟨(middle, target), ⟨member, rfl⟩, start, found, rfl⟩

theorem arriving_nodup (simple : edges.Nodup) {before : V → List (List (V × V))}
    (once : ∀ vertex, (before vertex).Nodup) : (arriving edges before target).Nodup := by
  rw [arriving, List.nodup_flatMap]
  constructor
  · intro edge _
    exact (once edge.1).map fun first second same => List.append_cancel_right same
  · refine (simple.filter _).imp fun {edge other} different => ?_
    rw [Function.onFun, List.disjoint_left]
    intro path first second
    obtain ⟨start, _, rfl⟩ := List.mem_map.mp first
    obtain ⟨begin, _, same⟩ := List.mem_map.mp second
    exact different (List.singleton_inj.mp (List.append_inj_right' same rfl)).symm

theorem paths_nodup (simple : edges.Nodup) (count : Nat) (target : V) :
    (paths edges source count target).Nodup := by
  induction count generalizing target with
  | zero =>
      rw [paths]
      split
      · exact List.nodup_singleton _
      · exact List.nodup_nil
  | succ count ih =>
      rw [paths]
      split
      · refine List.nodup_cons.mpr ⟨fun member => ?_, arriving_nodup simple ih⟩
        obtain ⟨_, _, _, _, empty⟩ := mem_arriving.mp member
        exact List.append_ne_nil_of_right_ne_nil _ (List.cons_ne_nil _ _) empty.symm
      · exact arriving_nodup simple ih

omit [DecidableEq V] in
theorem path_iff {path : List (V × V)} :
    Path edges source target path ↔ path = [] ∧ target = source ∨
      ∃ middle start, (middle, target) ∈ edges ∧ Path edges source middle start ∧
        path = start ++ [(middle, target)] := by
  constructor
  · rintro (_ | ⟨way, member⟩)
    · exact .inl ⟨rfl, rfl⟩
    · exact .inr ⟨_, _, member, way, rfl⟩
  · rintro (⟨rfl, rfl⟩ | ⟨middle, start, member, way, rfl⟩)
    · exact .nil
    · exact way.snoc member

theorem mem_start {path : List (V × V)} :
    path ∈ (if target = source then [[]] else []) ↔ path = [] ∧ target = source := by
  split
  · rename_i same
    rw [List.mem_singleton, and_iff_left same]
  · rename_i different
    exact iff_of_false List.not_mem_nil fun both => different both.2

section Ranked

variable {rank : V → Nat} (descends : ∀ edge ∈ edges, rank edge.2 < rank edge.1)
include descends

omit [DecidableEq V] in
theorem Path.descent {path : List (V × V)} (way : Path edges source target path) :
    rank target ≤ rank source := by
  induction way with
  | nil => exact Nat.le_refl _
  | @snoc middle target _ _ member ih =>
      have lower : rank target < rank middle := descends _ member
      exact lower.le.trans ih

theorem mem_paths {count : Nat} {target : V} {path : List (V × V)}
    (enough : rank source ≤ rank target + count) :
    path ∈ paths edges source count target ↔ Path edges source target path := by
  induction count generalizing target path with
  | zero =>
      rw [paths, mem_start, path_iff, or_iff_left]
      rintro ⟨middle, start, member, way, _⟩
      have lower : rank target < rank middle := descends _ member
      have above := way.descent descends
      omega
  | succ count ih =>
      rw [paths, List.mem_append, mem_start, mem_arriving, path_iff]
      refine or_congr_right (exists_congr fun middle => exists_congr fun start =>
        and_congr_right fun member => and_congr_left fun _ => ?_)
      have lower : rank target < rank middle := descends _ member
      exact ih (by omega)

theorem mem_arriving_paths {count : Nat} {target : V} {path : List (V × V)}
    (enough : rank source ≤ rank target + count) :
    path ∈ arriving edges (paths edges source count) target ↔
      Path edges source target path ∧ path ≠ [] := by
  rw [mem_arriving, path_iff]
  constructor
  · rintro ⟨middle, start, member, found, rfl⟩
    have lower : rank target < rank middle := descends _ member
    have way := (mem_paths descends (by omega)).mp found
    exact ⟨.inr ⟨middle, start, member, way, rfl⟩, by simp⟩
  · rintro ⟨⟨rfl, _⟩ | ⟨middle, start, member, way, rfl⟩, filled⟩
    · exact absurd rfl filled
    · have lower : rank target < rank middle := descends _ member
      exact ⟨middle, start, member, (mem_paths descends (by omega)).mpr way, rfl⟩

end Ranked

section Sums

variable [CommRing K]

def product (factor : V × V → K) (path : List (V × V)) : K := (path.map factor).prod

def total (factor : V × V → K) (ways : List (List (V × V))) : K :=
  (ways.map (product factor)).sum

omit [DecidableEq V] in
theorem product_snoc (factor : V × V → K) (path : List (V × V)) (edge : V × V) :
    product factor (path ++ [edge]) = factor edge * product factor path := by
  rw [product, List.map_append, List.prod_append, List.map_singleton, List.prod_singleton, mul_comm]
  rfl

theorem total_start (factor : V × V → K) (more : List (List (V × V))) :
    total factor ((if target = source then [[]] else []) ++ more) =
      (if target = source then 1 else 0) + total factor more := by
  split
  · rfl
  · exact (zero_add _).symm

theorem total_arriving (factor : V × V → K) (before : V → List (List (V × V))) (target : V) :
    total factor (arriving edges before target) =
      inflow edges factor (fun vertex => total factor (before vertex)) target := by
  induction edges with
  | nil => rfl
  | cons edge edges ih =>
      rw [inflow_cons, ← ih]
      by_cases arrives : edge.2 = target
      · have last : total factor ((before edge.1).map fun path => path ++ [edge]) =
            factor edge * total factor (before edge.1) := by
          simp only [total, List.map_map, Function.comp_def, product_snoc]
          rw [List.sum_map_mul_left]
        simp only [arriving, List.filter_cons, arrives, decide_true, if_true, List.flatMap_cons]
        rw [total, List.map_append, List.sum_append]
        exact congrArg (· + _) last
      · simp only [arriving, List.filter_cons, arrives, decide_false, Bool.false_eq_true, if_false,
          zero_add]

/-- What satisfies the equations of the inflow, and is found below the source only, is the sum
over the paths from the source. -/
theorem response_paths {rank : V → Nat} (descends : ∀ edge ∈ edges, rank edge.2 < rank edge.1)
    {factor : V × V → K} {amount : K} {response : V → K}
    (balanced : ∀ target, response target =
      inflow edges factor (fun vertex =>
        (if vertex = source then amount else 0) + response vertex) target)
    (below : ∀ vertex, response vertex ≠ 0 → rank vertex ≤ rank source) (count : Nat) (target : V)
    (enough : rank source ≤ rank target + count) :
    response target = amount * total factor (arriving edges (paths edges source count) target) := by
  induction count generalizing target with
  | zero =>
      rw [balanced, total_arriving, mul_inflow]
      refine inflow_congr fun edge member arrives => congrArg (factor edge * ·) ?_
      have lower := descends edge member
      -- an edge that arrives here starts above the source, where nothing is found
      have nothing : response edge.1 = 0 := by
        by_contra something
        have above := below edge.1 something
        rw [arrives] at lower
        omega
      rw [paths, ← List.append_nil (if edge.1 = source then [[]] else []), total_start, nothing]
      simp [total]
  | succ count ih =>
      rw [balanced, total_arriving, mul_inflow]
      refine inflow_congr fun edge member arrives => congrArg (factor edge * ·) ?_
      have lower := descends edge member
      rw [arrives] at lower
      rw [paths, total_start, mul_add, ← ih edge.1 (by omega), mul_ite, mul_one, mul_zero]

end Sums

end Inflow
