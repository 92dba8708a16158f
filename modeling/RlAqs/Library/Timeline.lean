import Mathlib.Algebra.Order.Ring.Defs
import Mathlib.Data.List.Pairwise
import Mathlib.Tactic.Linarith
import Mathlib.Tactic.Ring

/-!
A quantity that changes at some moments and stays as it is in between. The changes are listed
with the newest first: the time, and the value from then on.
-/

namespace Timeline

variable {K : Type*} [CommRing K]

/-- The integral of the quantity up to `now`, with zero before the first change. -/
def integral : List (K × K) → K → K
  | [], _ => 0
  | change :: earlier, now => integral earlier change.1 + change.2 * (now - change.1)

theorem integral_cons_self (change : K × K) (earlier : List (K × K)) :
    integral (change :: earlier) change.1 = integral earlier change.1 := by
  rw [integral, sub_self, mul_zero, add_zero]

theorem integral_later (change : K × K) (earlier : List (K × K)) (now later : K) :
    integral (change :: earlier) later =
      integral (change :: earlier) now + change.2 * (later - now) := by
  simp only [integral]
  ring

/-- A sum that was brought up to date at `last`: with what the quantity adds since then it is the
integral, but for an excess. -/
structure Settled (now value : K) (earlier : List (K × K)) (last sum excess : K) : Prop where
  balance : sum + value * (now - last) = integral ((now, value) :: earlier) now + excess

namespace Settled

variable {now value last sum excess : K} {earlier : List (K × K)}

theorem wait (settled : Settled now value earlier last sum excess) (later : K) :
    Settled later value ((now, value) :: earlier) last sum excess where
  balance := by
    have balance := settled.balance
    rw [integral_cons_self, integral_later _ _ now later, add_right_comm, ← balance]
    ring

theorem settle (settled : Settled now value earlier last sum excess) (later next extra : K) :
    Settled later next ((now, value) :: earlier) later (sum + value * (later - last) + extra)
      (excess + extra) where
  balance := by
    have balance := (settled.wait later).balance
    rw [integral_cons_self] at balance ⊢
    rw [sub_self, mul_zero, add_zero, balance, add_assoc]

theorem sum_eq (settled : Settled now value earlier now sum excess) :
    sum = integral earlier now + excess := by
  have balance := settled.balance
  rwa [sub_self, mul_zero, add_zero, integral_cons_self] at balance

end Settled

variable [LinearOrder K]

def Ordered (changes : List (K × K)) (now : K) : Prop :=
  (changes.Pairwise fun newer older => older.1 ≤ newer.1) ∧
    ∀ change ∈ changes, 0 ≤ change.1 ∧ change.1 ≤ now

theorem Ordered.tail {change : K × K} {earlier : List (K × K)} {now : K}
    (ordered : Ordered (change :: earlier) now) : Ordered earlier change.1 := by
  obtain ⟨sorted, bounds⟩ := ordered
  obtain ⟨newest, later⟩ := List.pairwise_cons.mp sorted
  exact ⟨later, fun older member =>
    ⟨(bounds older (List.mem_cons_of_mem _ member)).1, newest older member⟩⟩

theorem Ordered.cons {changes : List (K × K)} {now later : K} (ordered : Ordered changes now)
    (positive : 0 ≤ later) (order : now ≤ later) (value : K) :
    Ordered ((later, value) :: changes) later := by
  obtain ⟨sorted, bounds⟩ := ordered
  refine ⟨List.pairwise_cons.mpr ⟨fun older member => ?_, sorted⟩, fun change member => ?_⟩
  · exact (bounds older member).2.trans order
  · rcases List.mem_cons.mp member with rfl | old
    · exact ⟨positive, le_rfl⟩
    · exact ⟨(bounds change old).1, (bounds change old).2.trans order⟩

variable [IsStrictOrderedRing K]

theorem integral_nonneg {changes : List (K × K)} {now : K} (ordered : Ordered changes now)
    (values : ∀ change ∈ changes, 0 ≤ change.2) : 0 ≤ integral changes now := by
  induction changes generalizing now with
  | nil => exact le_rfl
  | cons change earlier ih =>
      have before := ih ordered.tail fun older member => values older (List.mem_cons_of_mem _ member)
      have value := values change List.mem_cons_self
      have order := (ordered.2 change List.mem_cons_self).2
      exact add_nonneg before (mul_nonneg value (sub_nonneg.mpr order))

theorem integral_le {changes : List (K × K)} {now : K} (ordered : Ordered changes now)
    (positive : 0 ≤ now) (values : ∀ change ∈ changes, change.2 ≤ 1) :
    integral changes now ≤ now := by
  induction changes generalizing now with
  | nil => exact positive
  | cons change earlier ih =>
      obtain ⟨start, order⟩ := ordered.2 change List.mem_cons_self
      have before := ih ordered.tail start fun older member =>
        values older (List.mem_cons_of_mem _ member)
      have value := mul_le_of_le_one_left (sub_nonneg.mpr order)
        (values change List.mem_cons_self)
      rw [integral]
      linarith

end Timeline
