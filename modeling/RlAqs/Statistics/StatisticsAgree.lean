import RlAqs.Library.Welford
import RlAqs.Statistics.StatisticsCore
import Mathlib.Data.List.Induction
import Mathlib.Tactic.NormNum

/-!
The one-pass statistics are the two-pass ones, up to as many values as their counters can count.
-/

namespace RlAqs

open Welford

def sampleVariance (values : List ℚ) : ℚ :=
  ssd values (Welford.mean values) / (values.length - 1 : Nat)

namespace OnlineStats

theorem pushAll_append (stats : OnlineStats) (values : List ℚ) (x : ℚ) :
    stats.pushAll (values ++ [x]) = (stats.pushAll values).push x := by
  simp [pushAll]

theorem push_n (stats : OnlineStats) (x : ℚ) : (stats.push x).n = (stats.n + 1) % 2 ^ 32 := by
  simp only [push]
  split <;> rfl

theorem pushAll_n {stats : OnlineStats} (empty : stats.n = 0) (values : List ℚ) :
    (stats.pushAll values).n = values.length % 2 ^ 32 := by
  induction values using List.reverseRecOn with
  | nil => exact empty
  | append_singleton values x ih =>
      rw [pushAll_append, push_n, ih, List.length_append, List.length_singleton]
      omega

theorem getNumValues_pushAll {values : List ℚ} (bound : values.length < 2 ^ 31) :
    (fresh.pushAll values).getNumValues = values.length := by
  rw [getNumValues, pushAll_n (by rfl), Nat.mod_eq_of_lt (by omega), toInt_natCast bound]

/-- What the fields hold after `values`; the new mean and sum are set from two values on. -/
structure Holds (stats : OnlineStats) (values : List ℚ) : Prop where
  n : stats.n = values.length
  oldM : stats.oldM = some (Welford.mean values)
  oldS : stats.oldS = some (ssd values (Welford.mean values))
  newM : 2 ≤ values.length → stats.newM = stats.oldM
  newS : 2 ≤ values.length → stats.newS = stats.oldS

theorem push_first {stats : OnlineStats} (empty : stats.n = 0) (x : ℚ) :
    (stats.push x).Holds [x] := by
  have first : stats.push x = { stats with n := 1, oldM := some x, oldS := some 0 } := by
    simp [push, empty]
  rw [first]
  refine ⟨rfl, ?_, ?_, ?_, ?_⟩
  · simp [Welford.mean]
  · simp [Welford.mean, ssd]
  · simp
  · simp

theorem Holds.push {stats : OnlineStats} {values : List ℚ} (holds : stats.Holds values)
    (some_value : values ≠ []) (bound : values.length + 1 < 2 ^ 32) (x : ℚ) :
    (stats.push x).Holds (values ++ [x]) := by
  have size : (stats.n + 1) % 2 ^ 32 = values.length + 1 := by
    rw [holds.n, Nat.mod_eq_of_lt bound]
  have later : values.length + 1 ≠ 1 := by
    have positive := List.length_pos_iff.mpr some_value
    omega
  have length : ((values.length + 1 : Nat) : ℚ) ≠ 0 := Nat.cast_ne_zero.mpr (Nat.succ_ne_zero _)
  have moved : (divide (x - Welford.mean values) (values.length + 1 : Nat)).map
      (fun step => Welford.mean values + step) = some (Welford.mean (values ++ [x])) := by
    rw [divide, if_neg length, Option.map_some, mean_append]
  have pushed : stats.push x =
      ⟨values.length + 1, some (Welford.mean (values ++ [x])), some (Welford.mean (values ++ [x])),
        some (ssd (values ++ [x]) (Welford.mean (values ++ [x]))),
        some (ssd (values ++ [x]) (Welford.mean (values ++ [x])))⟩ := by
    simp only [OnlineStats.push, size, if_neg later, holds.oldM, holds.oldS, Option.bind_some,
      moved, Option.map_some, ssd_mean_append]
  rw [pushed]
  exact ⟨by simp, rfl, rfl, fun _ => rfl, fun _ => rfl⟩

theorem pushAll_holds {stats : OnlineStats} (empty : stats.n = 0) {values : List ℚ}
    (some_value : values ≠ []) (bound : values.length < 2 ^ 32) :
    (stats.pushAll values).Holds values :=
  foldl_keeps (push_first empty) (fun holds => holds.push) some_value bound

theorem Holds.mean_eq {stats : OnlineStats} {values : List ℚ} (holds : stats.Holds values)
    (some_value : values ≠ []) : stats.mean = some (Welford.mean values) := by
  have positive := List.length_pos_iff.mpr some_value
  rw [OnlineStats.mean, holds.n]
  split
  · rename_i many
    rw [holds.newM many, holds.oldM]
  · rw [if_pos (by omega), holds.oldM]

theorem Holds.variance_eq {stats : OnlineStats} {values : List ℚ} (holds : stats.Holds values)
    (some_value : values ≠ []) : stats.variance = some (sampleVariance values) := by
  have positive := List.length_pos_iff.mpr some_value
  rw [variance, holds.n]
  split
  · rename_i many
    have divisor : ((values.length - 1 : Nat) : ℚ) ≠ 0 := Nat.cast_ne_zero.mpr (by omega)
    rw [holds.newS many, holds.oldS, Option.bind_some, divide, if_neg divisor]
    rfl
  · have single : values.length - 1 = 0 := by omega
    rw [sampleVariance, single, Nat.cast_zero, div_zero]

end OnlineStats

namespace Stats

end Stats

/-! The three overloads. -/

namespace CI

theorem isConfidentWithPrecision_of_few (functions : Functions) (mean sv : Option ℚ) {n : Nat}
    (few : n < 2) (alpha error : ℚ) :
    isConfidentWithPrecision functions mean sv n alpha error = false := by
  have size : toInt n < 2 := by
    rw [toInt_natCast (by omega)]
    omega
  rw [isConfidentWithPrecision]
  exact if_pos size

end CI

end RlAqs
