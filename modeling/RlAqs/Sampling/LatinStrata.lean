import RlAqs.Sampling.LatinSampleCore
import Mathlib.Data.List.GetD
import Mathlib.Tactic.Linarith
import Mathlib.Tactic.Ring

/-!
The strata of the plain sample: every column has one entry in each of them. The permutation is
shuffled again for each column, and is a permutation of the strata all the time.
-/

namespace RlAqs

namespace LHS

open GslMatrix

def InStratum (min max : ℚ) (pSize k : Nat) (x : ℚ) : Prop :=
  min + k * ((max - min) / pSize) < x ∧ x ≤ min + (k + 1) * ((max - min) / pSize)

def Stratified (pMin pMax : GslVector) (pSize : Nat) (mat : GslMatrix) : Prop :=
  ∀ j < mat.size2, ∀ k < pSize, ∃! i, i < pSize ∧
    InStratum (pMin.get j) (pMax.get j) pSize k (mat.get i j)

section Strata

variable {draws : SampleDraws} {pMin pMax : GslVector} {pSize : Nat} {data : List Nat}

/-- A draw of zero gives the upper end of the stratum. -/
theorem entry_inStratum_iff {i j : Nat} (positive : 0 < pSize) (order : pMin.get j < pMax.get j)
    (k : Nat) :
    InStratum (pMin.get j) (pMax.get j) pSize k (entry draws pMin pMax pSize data i j) ↔
      data.getD i 0 = k := by
  obtain ⟨lower, upper⟩ := draws.uniform_bounds i j
  set u := draws.uniform i j with drawn
  set d := data.getD i 0 with stratum
  set width := (pMax.get j - pMin.get j) / pSize with share
  have wide : 0 < width := div_pos (sub_pos.mpr order) (Nat.cast_pos.mpr positive)
  have value : entry draws pMin pMax pSize data i j = pMin.get j + (d + 1 - u) * width := by
    simp only [entry, ← drawn, ← stratum, share]
    ring
  rw [InStratum, value]
  constructor
  · rintro ⟨above, below⟩
    have first : (k : ℚ) < d + 1 - u :=
      lt_of_mul_lt_mul_right (by linarith) wide.le
    have second : (d : ℚ) + 1 - u ≤ k + 1 :=
      le_of_mul_le_mul_right (by linarith) wide
    have low : (k : ℚ) < d + 1 := by linarith
    have high : (d : ℚ) < k + 1 := by linarith
    have below : k < d + 1 := by exact_mod_cast low
    have above : d < k + 1 := by exact_mod_cast high
    omega
  · rintro rfl
    constructor
    · have step : (d : ℚ) * width < (d + 1 - u) * width :=
        mul_lt_mul_of_pos_right (by linarith) wide
      linarith
    · have step : ((d : ℚ) + 1 - u) * width ≤ (d + 1) * width :=
        mul_le_mul_of_nonneg_right (by linarith) wide.le
      linarith

theorem exists_unique_stratum (perm : data.Perm (List.range pSize)) {k : Nat} (bound : k < pSize) :
    ∃! i, i < pSize ∧ data.getD i 0 = k := by
  have length : data.length = pSize := by simpa using perm.length_eq
  have distinct : data.Nodup := perm.nodup_iff.mpr List.nodup_range
  obtain ⟨i, inside, found⟩ :=
    List.getElem_of_mem (perm.mem_iff.mpr (List.mem_range.mpr bound))
  refine ⟨i, ⟨length ▸ inside, by rw [List.getD_eq_getElem _ _ inside, found]⟩, ?_⟩
  rintro other ⟨within, same⟩
  rw [← length] at within
  rw [List.getD_eq_getElem _ _ within, ← found] at same
  exact (List.Nodup.getElem_inj_iff distinct).mp same

theorem fillColumn_eq (draws : SampleDraws) (pMin pMax : GslVector) (data : List Nat)
    (small : pSize < 65536) (mat : GslMatrix) (j : Nat) :
    ∃ filled, fillColumn draws pMin pMax pSize data mat j = some filled ∧
      filled.size1 = mat.size1 ∧ filled.size2 = mat.size2 ∧
      (∀ i < pSize, filled.get i j = entry draws pMin pMax pSize data i j) ∧
      ∀ i, ∀ other ≠ j, filled.get i other = mat.get i other := by
  rw [fillColumn, Simplex.indices, if_pos small, Option.map_some]
  refine ⟨_, rfl, ?_⟩
  clear small
  suffices rows : ∀ count,
      let filled := (List.range count).foldl
        (fun mat i => mat.set i j (entry draws pMin pMax pSize data i j)) mat
      filled.size1 = mat.size1 ∧ filled.size2 = mat.size2 ∧
        (∀ i < count, filled.get i j = entry draws pMin pMax pSize data i j) ∧
        ∀ i, ∀ other ≠ j, filled.get i other = mat.get i other from rows pSize
  intro count
  induction count with
  | zero => simp
  | succ count ih =>
      obtain ⟨size1, size2, column, others⟩ := ih
      rw [List.range_succ, List.foldl_append]
      simp only [List.foldl_cons, List.foldl_nil, GslMatrix.set]
      refine ⟨size1, size2, fun i bound => ?_, fun i other away => ?_⟩
      · by_cases last : i = count
        · subst last
          simp
        · rw [if_neg fun both => last both.1]
          exact column i (by omega)
      · rw [if_neg fun both => away both.2]
        exact others i other away

structure Filled (draws : SampleDraws) (pMin pMax : GslVector) (pSize nvar count : Nat)
    (state : GslMatrix × List Nat) : Prop where
  size1 : state.1.size1 = pSize
  size2 : state.1.size2 = nvar
  perm : state.2.Perm (List.range pSize)
  columns : ∀ j < count, ∃ data : List Nat, data.Perm (List.range pSize) ∧
    ∀ i < pSize, state.1.get i j = entry draws pMin pMax pSize data i j

theorem fillColumns_filled (draws : SampleDraws) (pMin pMax : GslVector) (small : pSize < 65536)
    {nvar : Nat} (bound : nvar < 65536) :
    ∃ state, fillColumns draws pMin pMax pSize nvar = some state ∧
      Filled draws pMin pMax pSize nvar nvar state := by
  rw [fillColumns, Simplex.indices, if_pos bound, Option.bind_some]
  clear bound
  suffices columns : ∀ count, ∃ state,
      (List.range count).foldlM (fun state j =>
        (fillColumn draws pMin pMax pSize (draws.shuffle j state.2) state.1 j).map fun mat =>
          (mat, draws.shuffle j state.2)) (calloc pSize nvar, List.range pSize) = some state ∧
      Filled draws pMin pMax pSize nvar count state from columns nvar
  intro count
  induction count with
  | zero => exact ⟨_, rfl, rfl, rfl, List.Perm.refl _, by simp⟩
  | succ count ih =>
      obtain ⟨⟨mat, data⟩, before, filled⟩ := ih
      obtain ⟨next, done, size1, size2, column, others⟩ :=
        fillColumn_eq draws pMin pMax (draws.shuffle count data) small mat count
      have shuffled := (draws.shuffle_perm count data).trans filled.perm
      refine ⟨(next, draws.shuffle count data), ?_, size1.trans filled.size1,
        size2.trans filled.size2, shuffled, fun j inside => ?_⟩
      · rw [List.range_succ, List.foldlM_append, before]
        simp [done]
      · by_cases last : j = count
        · subst last
          exact ⟨_, shuffled, column⟩
        · obtain ⟨earlier, perm, entries⟩ := filled.columns j (by omega)
          refine ⟨earlier, perm, fun i row => ?_⟩
          rw [others i j last]
          exact entries i row

theorem Filled.stratified {nvar : Nat} {state : GslMatrix × List Nat}
    (filled : Filled draws pMin pMax pSize nvar nvar state) (positive : 0 < pSize)
    (order : ∀ j < nvar, pMin.get j < pMax.get j) :
    Stratified pMin pMax pSize state.1 := by
  intro j column k stratum
  rw [filled.size2] at column
  obtain ⟨data, perm, entries⟩ := filled.columns j column
  obtain ⟨i, ⟨inside, found⟩, only⟩ := exists_unique_stratum perm stratum
  refine ⟨i, ⟨inside, ?_⟩, ?_⟩
  · simp only [entries i inside]
    exact (entry_inStratum_iff positive (order j column) k).mpr found
  · rintro other ⟨row, lies⟩
    rw [entries other row] at lies
    exact only other ⟨row, (entry_inStratum_iff positive (order j column) k).mp lies⟩

/-- A sample of the right shape comes back, with one entry of each column in every stratum,
exactly when a counter of 16 bits can go through the variables. -/
theorem sample_stratified_iff (draws : SampleDraws) (pMin pMax : GslVector)
    (sizes : pMin.size = pMax.size) (some_sample : 2 ≤ pSize) (small : pSize < 65536)
    (order : ∀ j < pMax.size, pMin.get j < pMax.get j) :
    (∃ mat, sample draws pMin pMax pSize = .ok mat ∧ mat.size1 = pSize ∧
        mat.size2 = pMax.size ∧ Stratified pMin pMax pSize mat) ↔
      pMax.size < 65536 := by
  rw [sample, if_neg (not_not.mpr sizes), if_neg (not_lt.mpr some_sample)]
  dsimp only
  constructor
  · rintro ⟨mat, done, _, size2, _⟩
    split at done
    · cases done
    split at done
    · cases done
    rename_i state filled
    obtain rfl := Except.ok.inj done
    by_cases bound : (Int.bmod pMax.size (2 ^ 32)).toNat < 65536
    · obtain ⟨state, same, shape⟩ := fillColumns_filled draws pMin pMax small bound
      rw [filled, Option.some.injEq] at same
      subst same
      rw [← size2, shape.size2]
      exact bound
    · rw [fillColumns, Simplex.indices, if_neg bound] at filled
      cases filled
  · intro bound
    have exact : Int.bmod (pMax.size : Int) (2 ^ 32) = pMax.size := by
      rw [Int.bmod_eq_of_le] <;> omega
    obtain ⟨state, done, filled⟩ := fillColumns_filled draws pMin pMax small bound
    rw [exact, if_neg (by omega), Int.toNat_natCast, done]
    exact ⟨state.1, rfl, filled.size1, filled.size2, filled.stratified (by omega) order⟩

/-- With more variables the loop over the columns goes on forever. -/
theorem sample_wide (draws : SampleDraws) (sizes : pMin.size = pMax.size) (some_sample : 2 ≤ pSize)
    (wide : 65536 ≤ pMax.size) (bound : pMax.size < 2 ^ 31) :
    sample draws pMin pMax pSize = .error .endless := by
  have exact : Int.bmod (pMax.size : Int) (2 ^ 32) = pMax.size := by
    rw [Int.bmod_eq_of_le] <;> omega
  have none : fillColumns draws pMin pMax pSize pMax.size = none := by
    rw [fillColumns, Simplex.indices, if_neg (not_lt.mpr wide), Option.bind_none]
  rw [sample, if_neg (not_not.mpr sizes), if_neg (not_lt.mpr some_sample)]
  dsimp only
  rw [exact, if_neg (by omega), Int.toNat_natCast, none]

end Strata

def idleDraws : SampleDraws where
  uniform := fun _ _ => 0
  uniform_bounds := fun _ _ => ⟨le_rfl, zero_lt_one⟩
  shuffle := fun _ data => data
  shuffle_perm := fun _ data => List.Perm.refl data

def lowest (nvar : Nat) : GslVector := ⟨nvar, fun _ => 0⟩

def highest (nvar : Nat) : GslVector := ⟨nvar, fun _ => 1⟩

theorem sample_stratified_iff_pair :
    ∃ mat, sample idleDraws (lowest 3) (highest 3) 2 = .ok mat ∧ mat.size1 = 2 ∧ mat.size2 = 3 ∧
      Stratified (lowest 3) (highest 3) 2 mat :=
  (sample_stratified_iff idleDraws (lowest 3) (highest 3) rfl le_rfl (by decide)
    fun _ _ => zero_lt_one).mpr (by decide)

theorem sample_endless :
    ¬∀ (draws : SampleDraws) (pMin pMax : GslVector) (pSize : Nat), pMin.size = pMax.size →
      2 ≤ pSize → pSize < 65536 → (∀ j < pMax.size, pMin.get j < pMax.get j) →
        ∃ mat, sample draws pMin pMax pSize = .ok mat ∧ mat.size1 = pSize ∧
          mat.size2 = pMax.size ∧ Stratified pMin pMax pSize mat := by
  intro always
  have endless : sample idleDraws (lowest 65536) (highest 65536) 2 = .error .endless :=
    sample_wide idleDraws rfl le_rfl le_rfl (by decide)
  obtain ⟨mat, done, _⟩ := always idleDraws (lowest 65536) (highest 65536) 2 rfl le_rfl (by decide)
    fun _ _ => zero_lt_one
  rw [endless] at done
  cases done

end LHS

end RlAqs
