import Mathlib.Algebra.Order.Field.Basic
import Mathlib.Algebra.BigOperators.Group.Finset.Basic
import Mathlib.Tactic.FieldSimp
import Mathlib.Tactic.Ring

/-!
A single server that takes its jobs first come, first served. Jobs are listed in the order
of their arrival; the completion times follow the Lindley recursion.
-/

namespace SingleServer

open Finset

theorem mean_extend {𝕜 : Type*} [Field 𝕜] [CharZero 𝕜] (total value : 𝕜) (count : Nat)
    (empty : count = 0 → total = 0) :
    total / count + (value - total / count) / ((count + 1 : ℕ) : 𝕜) =
      (total + value) / ((count + 1 : ℕ) : 𝕜) := by
  rcases Nat.eq_zero_or_pos count with none | some
  · subst none
    simp [empty rfl]
  · have nonzero : (count : 𝕜) ≠ 0 := by exact_mod_cast some.ne'
    have next : ((count + 1 : ℕ) : 𝕜) ≠ 0 := by exact_mod_cast count.succ_ne_zero
    field_simp
    push_cast
    ring

structure Job (𝕜 : Type*) where
  arrival : 𝕜
  service : 𝕜

variable {𝕜 : Type*} [Field 𝕜] [LinearOrder 𝕜]

def completion (jobs : List (Job 𝕜)) : Nat → 𝕜
  | 0 => 0
  | count + 1 =>
      match jobs[count]? with
      | some job => max job.arrival (completion jobs count) + job.service
      | none => completion jobs count

def delay (jobs : List (Job 𝕜)) (index : Nat) : 𝕜 :=
  match jobs[index]? with
  | some job => max 0 (completion jobs index - job.arrival)
  | none => 0

def totalDelay (jobs : List (Job 𝕜)) : 𝕜 := ∑ index ∈ range jobs.length, delay jobs index

def meanDelay (jobs : List (Job 𝕜)) : 𝕜 := totalDelay jobs / jobs.length

variable {jobs : List (Job 𝕜)}

@[simp] theorem completion_zero : completion jobs 0 = 0 := rfl

theorem completion_succ {index : Nat} (bound : index < jobs.length) :
    completion jobs (index + 1) =
      max jobs[index].arrival (completion jobs index) + jobs[index].service := by
  simp [completion, List.getElem?_eq_getElem bound]

theorem delay_eq {index : Nat} (bound : index < jobs.length) :
    delay jobs index = max 0 (completion jobs index - jobs[index].arrival) := by
  simp [delay, List.getElem?_eq_getElem bound]

theorem completion_append (more : List (Job 𝕜)) {count : Nat} (bound : count ≤ jobs.length) :
    completion (jobs ++ more) count = completion jobs count := by
  induction count with
  | zero => rfl
  | succ count ih =>
      simp only [completion, List.getElem?_append_left (show count < jobs.length by omega),
        ih (by omega)]

theorem delay_append (more : List (Job 𝕜)) {index : Nat} (bound : index < jobs.length) :
    delay (jobs ++ more) index = delay jobs index := by
  simp only [delay, List.getElem?_append_left bound, completion_append more bound.le]

theorem completion_snoc (jobs : List (Job 𝕜)) (job : Job 𝕜) :
    completion (jobs ++ [job]) (jobs.length + 1) =
      max job.arrival (completion jobs jobs.length) + job.service := by
  rw [completion_succ (by simp), completion_append [job] le_rfl]
  simp

theorem delay_snoc (jobs : List (Job 𝕜)) (job : Job 𝕜) :
    delay (jobs ++ [job]) jobs.length =
      max 0 (completion jobs jobs.length - job.arrival) := by
  rw [delay_eq (by simp), completion_append [job] le_rfl]
  simp

/-- First come, first served: nobody is done before an earlier job. -/
theorem completion_le_succ [IsStrictOrderedRing 𝕜]
    (nonneg : ∀ job ∈ jobs, 0 ≤ job.service) (count : Nat) :
    completion jobs count ≤ completion jobs (count + 1) := by
  by_cases bound : count < jobs.length
  · rw [completion_succ bound]
    exact (le_max_right _ _).trans
      (le_add_of_nonneg_right (nonneg _ (List.getElem_mem bound)))
  · simp [completion, List.getElem?_eq_none (not_lt.mp bound)]

@[simp] theorem totalDelay_nil : totalDelay ([] : List (Job 𝕜)) = 0 := rfl

theorem totalDelay_snoc (jobs : List (Job 𝕜)) (job : Job 𝕜) :
    totalDelay (jobs ++ [job]) =
      totalDelay jobs + max 0 (completion jobs jobs.length - job.arrival) := by
  have before : ∑ index ∈ range jobs.length, delay (jobs ++ [job]) index = totalDelay jobs :=
    sum_congr rfl fun index member => delay_append [job] (mem_range.mp member)
  rw [totalDelay, List.length_append, List.length_singleton, sum_range_succ, before, delay_snoc]

theorem length_mul_meanDelay [CharZero 𝕜] (jobs : List (Job 𝕜)) :
    jobs.length * meanDelay jobs = totalDelay jobs := by
  cases jobs with
  | nil => simp
  | cons job rest =>
      exact mul_div_cancel₀ _ (by exact_mod_cast (job :: rest).length_pos_of_ne_nil (by simp) |>.ne')

theorem meanDelay_snoc [CharZero 𝕜] (jobs : List (Job 𝕜)) (job : Job 𝕜) :
    meanDelay (jobs ++ [job]) = meanDelay jobs +
      (max 0 (completion jobs jobs.length - job.arrival) - meanDelay jobs) /
        ((jobs.length + 1 : ℕ) : 𝕜) := by
  unfold meanDelay
  rw [totalDelay_snoc, List.length_append, List.length_singleton, mean_extend]
  intro none
  rw [List.length_eq_zero_iff.mp none, totalDelay_nil]

end SingleServer
