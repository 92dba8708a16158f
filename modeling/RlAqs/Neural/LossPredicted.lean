import RlAqs.Neural.TrainingStart
import Mathlib.Data.List.DropRight

/-!
The error of one more example before it is added, and the value `addError` returns for it. A full
circular buffer drops its oldest example for a new one, and the error foreseen still counts it.
-/

namespace RlAqs

variable {K : Type*}

structure Example (K : Type*) where
  targets : Nat → K
  outputs : Nat → K
  size : Nat

def Example.squaredError [Ring K] (sample : Example K) : K :=
  addSquares sample.targets sample.outputs sample.size 0

def average [Field K] (errors : List K) : K :=
  errors.sum / errors.length

theorem SlidingWindowLossPolicy.pushBack_last (policy : SlidingWindowLossPolicy K)
    (errors : List K) (value : K) (positive : 0 < policy.window)
    (last : policy.buffer = errors.rtake policy.window) :
    (policy.pushBack value).buffer = (errors ++ [value]).rtake policy.window := by
  obtain ⟨window, same⟩ := Nat.exists_eq_add_of_lt positive
  rw [Nat.zero_add] at same
  have length : policy.buffer.length = errors.length - (errors.length - policy.window) := by
    rw [last, List.rtake, List.length_drop]
  have pushed : (policy.pushBack value).buffer =
      (if policy.buffer.length < policy.window then policy.buffer else policy.buffer.tail) ++
        [value] := by
    rw [pushBack]
    simp only [Nat.ne_of_gt positive, if_false]
    split <;> rfl
  rw [pushed, same, List.rtake_concat_succ, ← same]
  congr 1
  split
  · rename_i free
    rw [last, List.rtake, List.rtake]
    congr 1
    omega
  · rename_i full
    rw [last, List.rtake, List.rtake, List.tail_drop]
    congr 1
    omega

namespace LossPolicy

variable [Field K] [DecidableEq K]

inductive Created : LossPolicy K → Prop
  | default : Created (.default .fresh)
  | slidingWindow {policy : SlidingWindowLossPolicy K} :
      0 < policy.window → policy.buffer = [] → Created (.slidingWindow policy)

def after (policy : LossPolicy K) (history : List (Example K)) : LossPolicy K :=
  history.foldl
    (fun policy sample => (policy.addError sample.targets sample.outputs sample.size).2) policy

def counted (errors : List K) : LossPolicy K → List K
  | .default _ => errors
  | .slidingWindow policy => errors.rtake policy.window

/-- The examples can be counted with 32 bits or were all met exactly. The buffer has room for one
more, or its oldest example is as bad as the others with the new one are on average. -/
def Foresees (errors : List K) (next : K) : LossPolicy K → Prop
  | .default _ => errors.length < 2 ^ 32 ∨ errors.sum = 0
  | .slidingWindow policy =>
      errors.length < policy.window ∨
        ∃ oldest rest, errors.rtake policy.window = oldest :: rest ∧
          rest.sum + next = oldest * policy.window

theorem after_snoc (policy : LossPolicy K) (history : List (Example K)) (sample : Example K) :
    policy.after (history ++ [sample]) =
      ((policy.after history).addError sample.targets sample.outputs sample.size).2 := by
  rw [after, after, List.foldl_append]
  rfl

theorem after_default (history : List (Example K)) :
    (LossPolicy.default .fresh).after history =
      .default { sse := (history.map Example.squaredError).sum, size := .ofNat history.length } := by
  induction history using List.reverseRecOn with
  | nil => rfl
  | append_singleton history sample ih =>
      rw [after_snoc, ih, List.map_append, List.sum_append, List.map_singleton, List.sum_singleton,
        List.length_append, List.length_singleton]
      simp only [addError, DefaultLossPolicy.addError, Prod.map_snd]
      rw [addSquares_eq, UInt32.ofNat_add]
      rfl

theorem after_slidingWindow (created : SlidingWindowLossPolicy K) (positive : 0 < created.window)
    (empty : created.buffer = []) (history : List (Example K)) :
    ∃ policy, (LossPolicy.slidingWindow created).after history = .slidingWindow policy ∧
      policy.window = created.window ∧
      policy.buffer = (history.map Example.squaredError).rtake created.window := by
  induction history using List.reverseRecOn with
  | nil => exact ⟨created, rfl, rfl, empty.trans (List.rtake_nil _).symm⟩
  | append_singleton history sample ih =>
      obtain ⟨policy, reached, window, buffer⟩ := ih
      refine ⟨policy.pushBack sample.squaredError, ?_, window, ?_⟩
      · rw [after_snoc, reached]
        rfl
      · rw [List.map_append, List.map_singleton, ← window]
        rw [← window] at positive buffer
        exact policy.pushBack_last _ _ positive buffer

end LossPolicy

section Predicted

variable [Field K] [LinearOrder K] [IsStrictOrderedRing K]

theorem mean_recounted_iff (sum : K) {count other : Nat} (positive : count ≠ 0)
    (less : count < other) : sum / count = sum / other ↔ sum = 0 := by
  have nonzero : (count : K) ≠ 0 := Nat.cast_ne_zero.mpr positive
  have larger : (other : K) ≠ 0 := Nat.cast_ne_zero.mpr (by omega)
  have apart : (other : K) - count ≠ 0 := sub_ne_zero.mpr (Nat.cast_injective.ne (by omega))
  rw [div_eq_div_iff nonzero larger]
  constructor
  · intro same
    have product : sum * ((other : K) - count) = 0 := by linear_combination same
    exact (mul_eq_zero.mp product).resolve_right apart
  · intro zero
    rw [zero, zero_mul, zero_mul]

theorem DefaultLossPolicy.mean_average_iff (errors : List K) :
    DefaultLossPolicy.mean { sse := errors.sum, size := .ofNat errors.length } =
        some (average errors) ↔
      errors.length < 2 ^ 32 ∨ errors.sum = 0 := by
  have wrapped : (UInt32.ofNat errors.length).toNat = errors.length % 2 ^ 32 :=
    UInt32.toNat_ofNat'
  have zero : UInt32.ofNat errors.length = 0 ↔ errors.length % 2 ^ 32 = 0 := by
    rw [← UInt32.toNat_inj, wrapped]
    rfl
  simp only [mean, average, zero, wrapped]
  by_cases few : errors.length < 2 ^ 32
  · rw [Nat.mod_eq_of_lt few]
    refine iff_of_true ?_ (.inl few)
    split
    · rename_i none
      rw [none, Nat.cast_zero, div_zero]
    · rename_i some
      exact meanOf_eq _ some
  · rw [or_iff_right few]
    split
    · have counted : (errors.length : K) ≠ 0 := Nat.cast_ne_zero.mpr (by omega)
      rw [Option.some_inj, eq_comm, div_eq_zero_iff, or_iff_left counted]
    · rename_i some
      rw [meanOf_eq _ some, Option.some_inj]
      exact mean_recounted_iff _ some (by omega)

theorem SlidingWindowLossPolicy.mean_average (policy : SlidingWindowLossPolicy K) :
    policy.mean = some (average policy.buffer) := by
  rw [mean, average]
  split
  · rename_i empty
    rw [empty, Nat.cast_zero, div_zero]
  · rename_i filled
    exact meanOf_eq _ filled

theorem SlidingWindowLossPolicy.error_addError_iff (policy : SlidingWindowLossPolicy K)
    (positive : 0 < policy.window) (sample : Example K) :
    policy.error sample.targets sample.outputs sample.size =
        (policy.addError sample.targets sample.outputs sample.size).1 ↔
      policy.buffer.length < policy.window ∨
        ∃ oldest rest, policy.buffer = oldest :: rest ∧
          rest.sum + sample.squaredError = oldest * policy.window := by
  have fits := policy.fits
  have bounded := policy.window_lt
  simp only [error, addError, pushBack, Nat.ne_of_gt positive, if_false]
  rw [Nat.mod_eq_of_lt (by omega), addSquares_eq, ← Example.squaredError,
    meanOf_eq _ (Nat.succ_ne_zero _)]
  split
  · rename_i free
    rw [List.sum_append, List.sum_singleton, List.length_append, List.length_singleton,
      meanOf_eq _ (Nat.succ_ne_zero _)]
    exact iff_of_true rfl (.inl free)
  · rename_i full
    rw [or_iff_right full]
    cases held : policy.buffer with
    | nil =>
        rw [held, List.length_nil] at full
        exact absurd positive full
    | cons oldest rest =>
        rw [held, List.length_cons] at full fits
        have length : rest.length + 1 = policy.window := by omega
        rw [List.tail_cons, List.sum_append, List.sum_singleton, List.length_append,
          List.length_singleton, length, meanOf_eq _ (by omega), Option.some_inj, List.sum_cons,
          List.length_cons, length, add_assoc, add_comm oldest, eq_comm,
          Welford.mean_kept_iff (rest.sum + _) oldest (by omega)]
        constructor
        · intro same
          exact ⟨oldest, rest, rfl, same.symm⟩
        · rintro ⟨_, _, parts, same⟩
          cases parts
          exact same.symm

namespace LossPolicy

/-- What `error` foresees for one more example is what `addError` records, and the mean is that of
the examples that count, exactly when nothing is dropped or miscounted that matters. -/
theorem predicts_iff {created : LossPolicy K} (fresh : created.Created)
    (history : List (Example K)) (next : Example K) :
    ((created.after history).error next.targets next.outputs next.size =
        ((created.after history).addError next.targets next.outputs next.size).1 ∧
      (created.after history).mean =
        some (average (created.counted (history.map Example.squaredError)))) ↔
      created.Foresees (history.map Example.squaredError) next.squaredError := by
  cases fresh with
  | default =>
      rw [after_default]
      have length : history.length = (history.map Example.squaredError).length :=
        (List.length_map _).symm
      rw [length]
      exact (and_iff_right rfl).trans (DefaultLossPolicy.mean_average_iff _)
  | slidingWindow positive empty =>
      rename_i policy
      obtain ⟨current, reached, window, buffer⟩ := after_slidingWindow policy positive empty history
      rw [reached]
      have mean : (LossPolicy.slidingWindow current).mean =
          some (average (counted (history.map Example.squaredError) (.slidingWindow policy))) := by
        rw [counted, ← buffer]
        exact current.mean_average
      -- the mean holds in any state of the buffer: the condition is about what is foreseen
      rw [and_iff_left mean]
      refine (current.error_addError_iff (by omega) next).trans ?_
      have room : current.buffer.length < current.window ↔
          (history.map Example.squaredError).length < policy.window := by
        rw [buffer, window, List.rtake, List.length_drop]
        omega
      rw [room, buffer, window]
      rfl

end LossPolicy

end Predicted

section Windows

def missedBy (difference : ℚ) : Example ℚ where
  targets _ := 0
  outputs _ := difference
  size := 1

def SlidingWindowLossPolicy.ofTwo : SlidingWindowLossPolicy ℚ where
  window := 2
  window_lt := by decide
  buffer := []
  fits := Nat.zero_le 2

namespace LossPolicy

theorem predicts_with_room :
    (after (.slidingWindow .ofTwo) [missedBy 1]).error (fun _ => 0) (fun _ => 3) 1 =
        ((after (.slidingWindow .ofTwo) [missedBy 1]).addError (fun _ => 0) (fun _ => 3) 1).1 ∧
      (after (.slidingWindow .ofTwo) [missedBy 1]).mean =
        some (average (counted ([missedBy 1].map Example.squaredError) (.slidingWindow .ofTwo))) :=
  (predicts_iff (.slidingWindow Nat.two_pos rfl) [missedBy 1] (missedBy 3)).mpr
    (.inl Nat.one_lt_two)

/-- A full buffer: the mean of one, one and nine is foreseen, that of one and nine recorded. -/
theorem foreseen_apart :
    (after (.slidingWindow .ofTwo) [missedBy 1, missedBy 1]).error (fun _ => 0) (fun _ => 3) 1 =
        some (11 / 3) ∧
      ((after (.slidingWindow .ofTwo) [missedBy 1, missedBy 1]).addError (fun _ => 0)
        (fun _ => 3) 1).1 = some 5 := by
  decide +kernel

end LossPolicy

end Windows

end RlAqs
