import Mathlib.Algebra.BigOperators.Group.List.Basic
import Mathlib.Algebra.Ring.Defs
import Mathlib.Data.Nat.Cast.Defs
import Mathlib.Tactic.Ring

/-!
The time that is left until the moments of some items, summed over the items.
-/

namespace Remaining

variable {α K : Type*} [CommRing K]

def remaining (time : α → K) (items : List α) (now : K) : K :=
  (items.map fun item => time item - now).sum

variable (time : α → K) (items : List α) (now later : K)

@[simp] theorem remaining_nil : remaining time [] now = 0 := rfl

theorem remaining_concat (item : α) :
    remaining time (items ++ [item]) now = remaining time items now + (time item - now) := by
  simp [remaining]

theorem remaining_perm {others : List α} (perm : items.Perm others) :
    remaining time items now = remaining time others now :=
  (perm.map _).sum_eq

theorem remaining_later :
    remaining time items later = remaining time items now - items.length * (later - now) := by
  induction items with
  | nil => simp
  | cons item rest ih =>
      simp only [remaining, List.map_cons, List.sum_cons, List.length_cons] at ih ⊢
      rw [ih]
      push_cast
      ring

theorem remaining_erase [DecidableEq α] {item : α} (member : item ∈ items) :
    remaining time (items.erase item) (time item) = remaining time items (time item) := by
  have sum := List.sum_map_erase (fun other => time other - time item) member
  rwa [sub_self, zero_add] at sum

end Remaining
