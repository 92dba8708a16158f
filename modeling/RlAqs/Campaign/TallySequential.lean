import RlAqs.Campaign.TallyCore
import RlAqs.Library.Runs
import RlAqs.Statistics.StatisticsAgree

/-!
`SimulationCI` stops at the first number of replications, not below the initial one, whose sample
means are known precisely enough, and returns the statistics of exactly these replications.
-/

namespace RlAqs

namespace Outcome

def precise (precision : Precision) (values : List ℚ) : Bool :=
  CI.isConfidentWithPrecision precision.functions (some (Welford.mean values))
    (some (sampleVariance values)) values.length precision.alpha precision.error

def Precise (precision : Precision) (outcomes : List Outcome) : Prop :=
  precise precision (outcomes.map averageDelay) = true ∧
    precise precision (outcomes.map averageNumInQueue) = true ∧
    precise precision (outcomes.map totalQ) = true

instance (precision : Precision) (outcomes : List Outcome) :
    Decidable (Precise precision outcomes) :=
  inferInstanceAs (Decidable (_ ∧ _ ∧ _))

def summary (outcomes : List Outcome) : Summary where
  replications := outcomes.length
  meanDelay := some (Welford.mean (outcomes.map averageDelay))
  sdDelay := some (sampleVariance (outcomes.map averageDelay))
  meanNumInQueue := some (Welford.mean (outcomes.map averageNumInQueue))
  sdNumInQueue := some (sampleVariance (outcomes.map averageNumInQueue))
  meanTotalQ := some (Welford.mean (outcomes.map totalQ))
  sdTotalQ := some (sampleVariance (outcomes.map totalQ))

end Outcome

namespace Tally

open Outcome (Precise)

variable {precision : Precision} {outcomes : List Outcome}

theorem pushAll_concat (tally : Tally) (outcomes : List Outcome) (outcome : Outcome) :
    tally.pushAll (outcomes ++ [outcome]) = (tally.pushAll outcomes).push outcome := by
  simp [pushAll]

theorem pushAll_eq (tally : Tally) (outcomes : List Outcome) : tally.pushAll outcomes =
    ⟨tally.avgDelay.pushAll (outcomes.map Outcome.averageDelay),
      tally.avgNumEvents.pushAll (outcomes.map Outcome.averageNumInQueue),
      tally.totalQ.pushAll (outcomes.map Outcome.totalQ)⟩ := by
  induction outcomes generalizing tally with
  | nil => rfl
  | cons outcome rest ih => exact ih (tally.push outcome)

theorem getNumValues_pushAll (bound : outcomes.length < 2 ^ 31) :
    (fresh.pushAll outcomes).getNumValues = outcomes.length := by
  have counted : (OnlineStats.fresh.pushAll (outcomes.map Outcome.averageDelay)).getNumValues =
      outcomes.length := by
    rw [OnlineStats.getNumValues_pushAll (by rwa [List.length_map]), List.length_map]
  rw [pushAll_eq]
  exact counted

theorem confident_pushAll {values : List ℚ} (bound : values.length < 2 ^ 31) :
    confident precision (OnlineStats.fresh.pushAll values) = Outcome.precise precision values := by
  have size := OnlineStats.getNumValues_pushAll bound
  cases values with
  | nil =>
      rw [confident, size, Outcome.precise]
      rw [CI.isConfidentWithPrecision_of_few _ _ _ (by simp),
        CI.isConfidentWithPrecision_of_few _ _ _ (by simp)]
  | cons x rest =>
      have empty : OnlineStats.fresh.n = 0 := rfl
      have holds := OnlineStats.pushAll_holds empty (List.cons_ne_nil x rest) (by omega)
      rw [confident, holds.mean_eq (List.cons_ne_nil x rest),
        holds.variance_eq (List.cons_ne_nil x rest), size]
      rfl

theorem isConfident_pushAll (bound : outcomes.length < 2 ^ 31) :
    (fresh.pushAll outcomes).isConfident precision = true ↔ Precise precision outcomes := by
  rw [pushAll_eq, isConfident]
  simp only [fresh]
  rw [confident_pushAll (by rwa [List.length_map]), confident_pushAll (by rwa [List.length_map]),
    confident_pushAll (by rwa [List.length_map]), Bool.and_eq_true, Bool.and_eq_true, and_assoc]
  rfl

theorem summary_pushAll (some_outcome : outcomes ≠ []) (bound : outcomes.length < 2 ^ 32) :
    (fresh.pushAll outcomes).summary outcomes.length = Outcome.summary outcomes := by
  have nonempty (f : Outcome → ℚ) : outcomes.map f ≠ [] := by simpa using some_outcome
  have small (f : Outcome → ℚ) : (outcomes.map f).length < 2 ^ 32 := by rwa [List.length_map]
  have holds (f : Outcome → ℚ) : (OnlineStats.fresh.pushAll (outcomes.map f)).Holds
      (outcomes.map f) := OnlineStats.pushAll_holds rfl (nonempty f) (small f)
  rw [pushAll_eq, summary]
  simp only [fresh]
  rw [(holds _).mean_eq (nonempty _), (holds _).variance_eq (nonempty _),
    (holds _).mean_eq (nonempty _), (holds _).variance_eq (nonempty _),
    (holds _).mean_eq (nonempty _), (holds _).variance_eq (nonempty _)]
  rfl

theorem two_le_of_precise (precise : Precise precision outcomes) : 2 ≤ outcomes.length := by
  have test := precise.1
  by_contra few
  rw [Outcome.precise, CI.isConfidentWithPrecision_of_few _ _ _ (by rw [List.length_map]; omega)]
    at test
  cases test

end Tally

namespace SimulationCI

open Outcome (Precise)

variable {precision : Precision} {initialExp : Nat} {outcomes : List Outcome}
  {final : SimulationCI}

structure Follows (precision : Precision) (initialExp : Nat) (outcomes : List Outcome)
    (simulation : SimulationCI) : Prop where
  tally : simulation.tally = Tally.fresh.pushAll outcomes
  repNum : simulation.repNum = outcomes.length + 1
  initial : simulation.initial = decide (outcomes.length < initialExp)
  isConfident : simulation.isConfident = true ↔
    initialExp ≤ outcomes.length ∧ Precise precision outcomes
  rows : simulation.rows = outcomes.mapIdx fun index outcome => (index + 1, outcome)

theorem start_follows (precision : Precision) (initialExp : Nat) :
    Follows precision initialExp [] (start precision initialExp) := by
  have imprecise : ¬Precise precision [] := fun precise => by
    have two := Tally.two_le_of_precise precise
    simp at two
  have notConfident : Tally.fresh.isConfident precision = false := by
    refine Bool.eq_false_iff.mpr fun confident => imprecise ?_
    exact (Tally.isConfident_pushAll (by norm_num)).mp confident
  refine ⟨rfl, rfl, rfl, ?_, rfl⟩
  simp [start, imprecise, notConfident]

theorem Follows.step {simulation next : SimulationCI} {outcome : Outcome}
    (follows : Follows precision initialExp outcomes simulation)
    (small : outcomes.length + 2 < 2 ^ 16)
    (stepped : step precision initialExp simulation outcome = some next) :
    Follows precision initialExp (outcomes ++ [outcome]) next := by
  unfold SimulationCI.step at stepped
  split at stepped
  · cases stepped
  have next := Option.some.inj stepped
  have number : (simulation.repNum + 1) % 2 ^ 16 = outcomes.length + 2 := by
    rw [follows.repNum, Nat.mod_eq_of_lt small]
  have length : (outcomes ++ [outcome]).length = outcomes.length + 1 := by simp
  have tally : simulation.tally.push outcome = Tally.fresh.pushAll (outcomes ++ [outcome]) := by
    rw [follows.tally, Tally.pushAll_concat]
  have initial : (simulation.initial && decide ((simulation.repNum + 1) % 2 ^ 16 ≤ initialExp)) =
      decide ((outcomes ++ [outcome]).length < initialExp) := by
    rw [follows.initial, number, length, ← Bool.decide_and]
    congr 1
    exact propext ⟨fun both => by omega, fun less => by omega⟩
  subst next
  refine ⟨tally, ?_, initial, ?_, ?_⟩
  · rw [number, length]
  · simp only [initial, tally, Bool.and_eq_true, Bool.not_eq_true', decide_eq_false_iff_not, not_lt]
    rw [Tally.isConfident_pushAll (by omega)]
  · simp only [follows.rows, List.mapIdx_append, List.mapIdx_cons, List.mapIdx_nil,
      follows.repNum, Nat.zero_add]

theorem run_follows (small : outcomes.length + 1 < 2 ^ 16)
    (ran : Runs.run (step precision initialExp) (start precision initialExp) outcomes =
      some final) : Follows precision initialExp outcomes final := by
  refine @Runs.run_induction _ _ _ (fun outcomes final => outcomes.length + 1 < 2 ^ 16 →
    Follows precision initialExp outcomes final) _ ?_ ?_ _ _ ran small
  · exact fun _ => start_follows precision initialExp
  · intro outcomes before outcome after _ ih stepped bound
    rw [List.length_append, List.length_singleton] at bound
    exact (ih (by omega)).step (by omega) stepped

theorem Follows.goes_on {simulation : SimulationCI}
    (follows : Follows precision initialExp outcomes simulation) (outcome : Outcome) :
    (∃ next, SimulationCI.step precision initialExp simulation outcome = some next) ↔
      ¬(initialExp ≤ outcomes.length ∧ Precise precision outcomes) := by
  rw [← follows.isConfident]
  unfold SimulationCI.step
  split
  · simp_all
  · simp_all

/-- `SimulationCI` simulates until the replications, as many as the initial ones at least, are
precise, never beyond, and returns their number, sample means and sample variances. -/
theorem run_stops (small : outcomes.length + 1 < 2 ^ 16)
    (ran : Runs.run (step precision initialExp) (start precision initialExp) outcomes =
      some final) :
    final.rows = outcomes.mapIdx (fun index outcome => (index + 1, outcome)) ∧
      (∀ count < outcomes.length,
        ¬(initialExp ≤ count ∧ Precise precision (outcomes.take count))) ∧
      (final.isConfident = true ↔ initialExp ≤ outcomes.length ∧ Precise precision outcomes) ∧
      (final.isConfident = true → final.result initialExp = Outcome.summary outcomes) := by
  have follows := run_follows small ran
  refine ⟨follows.rows, fun count less => ?_, follows.isConfident, fun confident => ?_⟩
  · have split : outcomes.take count ++ outcomes.drop count = outcomes :=
      List.take_append_drop count outcomes
    rw [← split, Runs.run_append, Option.bind_eq_some_iff] at ran
    obtain ⟨before, ranBefore, later⟩ := ran
    have length : (outcomes.take count).length = count := by
      rw [List.length_take, Nat.min_eq_left less.le]
    have earlier := run_follows (by omega) ranBefore
    rw [List.drop_eq_getElem_cons less, Runs.run_cons, Option.bind_eq_some_iff] at later
    obtain ⟨next, stepped, _⟩ := later
    have going := (earlier.goes_on _).mp ⟨next, stepped⟩
    rwa [length] at going
  · have sufficient := follows.isConfident.mp confident
    have two := Tally.two_le_of_precise sufficient.2
    have some_outcome : outcomes ≠ [] := by
      intro none
      rw [none] at two
      simp at two
    rw [result, follows.repNum, if_pos (by omega), follows.tally,
      ← Tally.summary_pushAll some_outcome (by omega)]
    congr 1
    omega

/-- A quantile for one degree of freedom, and the square root of squares. -/
def tabulated : CI.Functions where
  quantile := fun _ _ => 12706 / 1000
  sqrt := fun x => (Nat.sqrt x.num.toNat : ℚ) / Nat.sqrt x.den

theorem run_stops_twice :
    let precision : Precision := ⟨tabulated, 5 / 100, 5 / 100⟩
    ∃ final, Runs.run (step precision 2) (start precision 2) [⟨3, 2, 1⟩, ⟨3, 2, 1⟩] =
        some final ∧ final.isConfident = true ∧
      final.result 2 = Outcome.summary [⟨3, 2, 1⟩, ⟨3, 2, 1⟩] := by
  intro precision
  have checked : ∃ final ∈ Runs.run (step precision 2) (start precision 2)
      [⟨3, 2, 1⟩, ⟨3, 2, 1⟩], final.isConfident = true := by
    decide +kernel
  obtain ⟨final, ran, confident⟩ := checked
  exact ⟨final, ran, confident, (run_stops (by decide) ran).2.2.2 confident⟩

end SimulationCI

end RlAqs
