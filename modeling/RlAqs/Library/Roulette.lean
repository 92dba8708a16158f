import Mathlib.Algebra.BigOperators.Group.List.Basic
import Mathlib.Algebra.Order.Group.Abs
import Mathlib.Algebra.Order.Ring.Defs
import Mathlib.Data.List.Nodup
import Mathlib.Tactic.Linarith

/-!
The choice of an item by a number drawn from the unit interval: the weights of the items are
added up until they exceed the number. Should they not, a last resort is taken.
-/

namespace Roulette

variable {α K : Type*} [CommRing K]

def spin [LinearOrder K] (draw : K) : List (α × K) → K → Option α
  | [], _ => none
  | item :: rest, before =>
      if draw < before + item.2 then some item.1 else spin draw rest (before + item.2)

def total (items : List (α × K)) : K := (items.map Prod.snd).sum

theorem total_cons (item : α × K) (rest : List (α × K)) :
    total (item :: rest) = item.2 + total rest := by
  simp [total]

theorem total_perm {items others : List (α × K)} (perm : items.Perm others) :
    total items = total others :=
  (perm.map _).sum_eq

def pick [LinearOrder K] (draw : K) (items : List (α × K)) (resort : α) : α :=
  (spin draw items 0).getD resort

variable [LinearOrder K]

theorem spin_mem {draw before : K} {items : List (α × K)} {name : α}
    (found : spin draw items before = some name) : name ∈ items.map Prod.fst := by
  induction items generalizing before with
  | nil => cases found
  | cons item rest ih =>
      rw [spin] at found
      split at found
      · rw [← Option.some.inj found]
        exact List.mem_cons_self
      · exact List.mem_cons_of_mem _ (ih found)

variable [IsStrictOrderedRing K]

theorem total_nonneg {items : List (α × K)} (nonneg : ∀ item ∈ items, 0 ≤ item.2) :
    0 ≤ total items := by
  induction items with
  | nil => exact le_rfl
  | cons item rest ih =>
      rw [total_cons]
      exact add_nonneg (nonneg item List.mem_cons_self)
        (ih fun other member => nonneg other (List.mem_cons_of_mem _ member))

/-- The wheel stops beyond all items when the draw is not below their total weight. -/
theorem spin_none {draw before : K} {items : List (α × K)} (nonneg : ∀ item ∈ items, 0 ≤ item.2)
    (order : before ≤ draw) : spin draw items before = none ↔ before + total items ≤ draw := by
  induction items generalizing before with
  | nil => simpa [spin, total] using order
  | cons item rest ih =>
      have nonneg' : ∀ other ∈ rest, 0 ≤ other.2 :=
        fun other member => nonneg other (List.mem_cons_of_mem _ member)
      rw [spin, total_cons]
      split
      · rename_i below
        have positive := total_nonneg nonneg'
        simp only [reduceCtorEq, false_iff, not_le]
        linarith
      · rename_i beyond
        rw [ih nonneg' (not_lt.mp beyond), add_assoc]

/-- Each item is met on an interval as long as its weight is. -/
theorem spin_interval {items : List (α × K)} {name : α} {weight : K} (before : K)
    (nonneg : ∀ item ∈ items, 0 ≤ item.2) (distinct : (items.map Prod.fst).Nodup)
    (member : (name, weight) ∈ items) :
    ∃ lower, before ≤ lower ∧ lower + weight ≤ before + total items ∧
      ∀ draw, before ≤ draw →
        (spin draw items before = some name ↔ lower ≤ draw ∧ draw < lower + weight) := by
  induction items generalizing before with
  | nil => cases member
  | cons item rest ih =>
      have nonneg' : ∀ other ∈ rest, 0 ≤ other.2 :=
        fun other inside => nonneg other (List.mem_cons_of_mem _ inside)
      rw [List.map_cons, List.nodup_cons] at distinct
      rcases List.mem_cons.mp member with rfl | later
      · have positive := total_nonneg nonneg'
        refine ⟨before, le_rfl, ?_, fun draw order => ?_⟩
        · rw [total_cons]
          linarith
        · rw [spin]
          split
          · rename_i below
            exact iff_of_true rfl ⟨order, below⟩
          · rename_i beyond
            refine iff_of_false (fun found => distinct.1 (spin_mem found)) ?_
            exact fun inside => beyond inside.2
      · obtain ⟨lower, above, within, interval⟩ := ih (before + item.2) nonneg' distinct.2 later
        have weight_nonneg := nonneg item List.mem_cons_self
        refine ⟨lower, by linarith, by rw [total_cons, ← add_assoc]; exact within,
          fun draw order => ?_⟩
        rw [spin]
        split
        · rename_i below
          refine iff_of_false (fun found => distinct.1 ?_) fun inside => ?_
          · rw [Option.some.inj found]
            exact List.mem_map.mpr ⟨_, later, rfl⟩
          · linarith [inside.1]
        · rename_i beyond
          exact interval draw (not_lt.mp beyond)

theorem pick_interval {items : List (α × K)} {name : α} {weight : K} (resort : α)
    (nonneg : ∀ item ∈ items, 0 ≤ item.2) (distinct : (items.map Prod.fst).Nodup)
    (member : (name, weight) ∈ items) :
    ∃ lower, 0 ≤ lower ∧ lower + weight ≤ total items ∧
      ∀ draw, 0 ≤ draw → draw < total items →
        (pick draw items resort = name ↔ lower ≤ draw ∧ draw < lower + weight) := by
  obtain ⟨lower, above, within, interval⟩ := spin_interval 0 nonneg distinct member
  rw [zero_add] at within
  refine ⟨lower, above, within, fun draw order below => ?_⟩
  rw [← interval draw order, pick]
  cases found : spin draw items 0 with
  | none =>
      rw [spin_none nonneg order, zero_add] at found
      exact absurd below (not_lt.mpr found)
  | some chosen => rw [Option.getD_some, Option.some.injEq]

theorem pick_beyond {items : List (α × K)} {draw : K} (resort : α)
    (nonneg : ∀ item ∈ items, 0 ≤ item.2) (order : 0 ≤ draw) (beyond : total items ≤ draw) :
    pick draw items resort = resort := by
  rw [pick, (spin_none nonneg order).mpr (by rwa [zero_add]), Option.getD_none]

end Roulette
