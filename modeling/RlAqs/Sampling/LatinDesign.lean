import RlAqs.Sampling.LatinOrthogonal
import Mathlib.Data.List.Perm.Subperm
import Mathlib.Tactic.NormNum

/-!
The design of the optimal `LHS::sample`: it comes to an end when the counter of the rows can reach
their number, and then every column takes every level once and any two columns are orthogonal
about the middle row.
-/

namespace RlAqs

namespace LHS

open GslMatrix SignFlips

variable {garbage matrix : GslMatrix} {e vector pMin pMax : GslVector}
  {m i j column row index : Nat} {low high value missing : ℚ}

/-! The bounds of the columns. -/

def limit (vector : GslVector) (missing : ℚ) (column : Nat) : ℚ :=
  if column < vector.size then vector.get column else missing

theorem foldl_update {β : Type} (entries : List Nat) (value initial : Nat → β) (i : Nat) :
    entries.foldl (fun padded i => Function.update padded i (value i)) initial i =
      if i ∈ entries then value i else initial i := by
  induction entries generalizing initial with
  | nil => rfl
  | cons first rest ih =>
      rw [List.foldl_cons, ih]
      by_cases later : i ∈ rest
      · rw [if_pos later, if_pos (List.mem_cons_of_mem _ later)]
      · by_cases here : i = first
        · subst here
          rw [if_neg later, if_pos List.mem_cons_self, Function.update_self]
        · rw [if_neg later, Function.update_of_ne here,
            if_neg fun member => (List.mem_cons.mp member).elim here later]

theorem setRow_get (matrix : GslMatrix) (row : Nat) (entries : Nat → ℚ) :
    (matrix.setRow row entries).get = Function.update matrix.get row entries := by
  funext i j
  by_cases here : i = row
  · subst here
    rw [Function.update_self]
    exact if_pos rfl
  · rw [Function.update_of_ne here]
    exact if_neg here

theorem foldl_setRow (rows : List Nat) (entries : Nat → ℚ) (initial : GslMatrix) (i : Nat) :
    (rows.foldl (fun repeated i => repeated.setRow i entries) initial).get i =
      if i ∈ rows then entries else initial.get i := by
  rw [← foldl_update rows (fun _ => entries) initial.get i,
    List.foldl_hom get fun matrix row => (setRow_get matrix row entries).symm]

theorem padded_get (columns : Nat) (short : vector.size < 65536) (fits : vector.size ≤ columns)
    (missing : ℚ) :
    ∃ filled, padded columns missing vector = some filled ∧ filled.size = columns ∧
      ∀ column < columns, filled.get column = limit vector missing column := by
  unfold padded
  rcases Nat.lt_or_ge vector.size columns with fewer | enough
  · rw [if_pos fewer, Simplex.indices, if_pos short]
    refine ⟨_, rfl, rfl, fun column inside => ?_⟩
    simp only [foldl_update, List.mem_range, limit]
  · rw [if_neg (by omega)]
    refine ⟨vector, rfl, Nat.le_antisymm fits enough, fun column inside => ?_⟩
    exact (if_pos (by omega)).symm

theorem repeated_get (short : matrix.size1 < 65536) (fits : vector.size = matrix.size2) :
    ∃ rows, repeated matrix vector = some rows ∧
      ∀ row < matrix.size1, ∀ column, rows.get row column = vector.get column := by
  rw [repeated, if_pos fits, Simplex.indices, if_pos short]
  refine ⟨_, rfl, fun row inside column => ?_⟩
  rw [foldl_setRow, if_pos (List.mem_range.mpr inside)]

theorem repeated_none (long : 65536 ≤ matrix.size1) : repeated matrix vector = none := by
  rw [repeated, Simplex.indices, if_neg (Nat.not_lt.mpr long)]
  exact ite_self none

/-! The entries of the design. -/

theorem mulElements_signed (garbage : GslMatrix) (e : GslVector) (inside : i < 2 ^ (m - 1))
    (bound : j < 2 * m - 2) :
    ((matrixM garbage m e).mulElements (matrixS m)).get i j = signed m e i j := by
  simp only [mulElements]
  rw [matrixM_get garbage e inside bound, matrixS_get inside bound, signed, mul_comm]

theorem foldl_setCol_size1 (columns : List Nat) (place : Nat → Nat)
    (entries : GslMatrix → Nat → Nat → ℚ) (matrix : GslMatrix) :
    (columns.foldl (fun matrix k => matrix.setCol (place k) (entries matrix k)) matrix).size1 =
      matrix.size1 := by
  induction columns generalizing matrix with
  | nil => rfl
  | cons first rest ih => exact ih _

theorem matrixM_size1 (garbage : GslMatrix) (m : Nat) (e : GslVector) :
    (matrixM garbage m e).size1 = 2 ^ (m - 1) := by
  unfold matrixM
  dsimp only
  rw [foldl_setCol_size1 _ (fun j => m + j) (fun _ j => ((matrixA garbage m (m - 1)).dgemm
    (matrixA garbage m (j + 1))).dgemv e.get),
    foldl_setCol_size1 _ (fun k => k) fun _ k => (matrixA garbage m k).dgemv e.get]
  rfl

theorem copyRows_mirrored {source : GslMatrix} (many : 2 ≤ m) (size : source.size1 = 2 ^ (m - 1))
    (zeros : ∀ row, matrix.get row column = 0)
    (signs : ∀ row < 2 ^ (m - 1), source.get row column = signed m e row column)
    (inside : row < 2 ^ m + 1) :
    ((matrix.copyRows 0 source).copyRows (2 ^ (m - 1) + 1) (source.scale (-1))).get row column =
      mirrored m e row column := by
  have rows := two_pow_eq many
  simp only [copyRows, scale, size, mirrored, Nat.zero_add, Nat.sub_zero, Nat.zero_le, true_and]
  rcases Nat.lt_trichotomy row (2 ^ (m - 1)) with before | rfl | after
  · rw [if_neg (by omega), if_pos before, if_pos before, signs row before]
  · rw [if_neg (by omega), if_neg (by omega), if_neg (by omega), if_pos rfl, zeros]
  · rw [if_pos (by omega), if_neg (by omega), if_neg (by omega), signs _ (by omega), neg_one_mul]

theorem unitDesign_get (garbage : GslMatrix) (e : GslVector) (many : 2 ≤ m)
    (inside : row < 2 ^ m + 1) (bound : column < 2 * m - 2) :
    (unitDesign garbage m e).get row column =
      (mirrored m e row column + 2 ^ (m - 1)) / 2 ^ m := by
  have size : ((matrixM garbage m e).mulElements (matrixS m)).size1 = 2 ^ (m - 1) :=
    matrixM_size1 garbage m e
  have entry := copyRows_mirrored many size
    (fun _ => rfl : ∀ row, (calloc (2 ^ m + 1) (2 * m - 2)).get row column = 0)
    (fun row before => mulElements_signed garbage e before bound) inside
  rw [← entry, ← one_div_mul_eq_div]
  simp only [unitDesign, scale, addConstant, Nat.cast_pow, Nat.cast_ofNat]

theorem design_get (garbage : GslMatrix) (e : GslVector) (many : 2 ≤ m) (short : m ≤ 15)
    (sizes : pMin.size = pMax.size) (fits : pMin.size ≤ 2 * m - 2) :
    ∃ matrix, design garbage m e pMin pMax = some matrix ∧
      matrix.size1 = 2 ^ m + 1 ∧ matrix.size2 = 2 * m - 2 ∧
      ∀ row < 2 ^ m + 1, ∀ column < 2 * m - 2, matrix.get row column =
        limit pMin 0 column + (mirrored m e row column + 2 ^ (m - 1)) / 2 ^ m *
          (limit pMax 1 column - limit pMin 0 column) := by
  have rows : (unitDesign garbage m e).size1 < 65536 := by
    have power : 2 ^ m ≤ 2 ^ 15 := Nat.pow_le_pow_right (by omega) short
    have size : (unitDesign garbage m e).size1 = 2 ^ m + 1 := rfl
    omega
  have columns : (unitDesign garbage m e).size2 = 2 * m - 2 := rfl
  obtain ⟨lowest, lowestFilled, lowestSize, lowestGet⟩ :=
    padded_get (2 * m - 2) (by omega) fits 0
  obtain ⟨highest, highestFilled, highestSize, highestGet⟩ :=
    padded_get (2 * m - 2) (by omega) (sizes ▸ fits) 1
  obtain ⟨lb, lbRepeated, lbGet⟩ := repeated_get rows lowestSize
  obtain ⟨lub, lubRepeated, lubGet⟩ := repeated_get rows highestSize
  refine ⟨((unitDesign garbage m e).mulElements (lub.sub lb)).add lb, ?_, rfl, rfl,
    fun row inside column bound => ?_⟩
  · simp only [design, columns, lowestFilled, highestFilled, lbRepeated, lubRepeated,
      Option.bind_some, Option.map_some]
  · simp only [GslMatrix.add, mulElements, GslMatrix.sub]
    rw [unitDesign_get garbage e many inside bound, lubGet row inside column,
      lbGet row inside column, lowestGet column bound, highestGet column bound, add_comm]

/-! The levels of a column. -/

def IsPermutation (m : Nat) (e : GslVector) : Prop :=
  ((List.range e.size).map e.get).Perm ((List.range' 1 (2 ^ (m - 1))).map Nat.cast)

theorem IsPermutation.size_eq (permutation : IsPermutation m e) : e.size = 2 ^ (m - 1) := by
  have lengths := permutation.length_eq
  rwa [List.length_map, List.length_map, List.length_range, List.length_range'] at lengths

theorem IsPermutation.takes (permutation : IsPermutation m e) (positive : 1 ≤ index)
    (inside : index ≤ 2 ^ (m - 1)) : ∃ i < 2 ^ (m - 1), e.get i = index := by
  have member : (index : ℚ) ∈ (List.range' 1 (2 ^ (m - 1))).map Nat.cast :=
    List.mem_map_of_mem (List.mem_range'_1.mpr ⟨positive, by omega⟩)
  obtain ⟨i, found, taken⟩ := List.mem_map.mp (permutation.mem_iff.mpr member)
  rw [List.mem_range, permutation.size_eq] at found
  exact ⟨i, found, taken⟩

theorem mirrored_takes (many : 2 ≤ m) (bound : column < 2 * m - 2) (inside : i < 2 ^ (m - 1))
    (either : value = e.get i ∨ value = -e.get i) :
    ∃ row < 2 ^ m + 1, mirrored m e row column = value := by
  have rows := two_pow_eq many
  have place : i ^^^ mask m column < 2 ^ (m - 1) := Nat.xor_lt_two_pow inside (mask_lt m bound)
  have entry : signed m e (i ^^^ mask m column) column =
      sign (bits m column) (i ^^^ mask m column) * e.get i := by
    rw [signed, Nat.xor_assoc, Nat.xor_self, Nat.xor_zero]
  have first := mirrored_first place e column
  have last := mirrored_last m e (i ^^^ mask m column) column
  rw [entry] at first last
  rcases sign_cases (K := ℚ) (bits m column) (i ^^^ mask m column) with plus | minus
  · rw [plus, one_mul] at first last
    rcases either with rfl | rfl
    · exact ⟨_, by omega, first⟩
    · exact ⟨_, by omega, last⟩
  · rw [minus, neg_one_mul] at first last
    rcases either with rfl | rfl
    · exact ⟨_, by omega, last.trans (neg_neg _)⟩
    · exact ⟨_, by omega, first⟩

theorem mirrored_level (many : 2 ≤ m) (bound : column < 2 * m - 2)
    (permutation : IsPermutation m e) (inside : index ≤ 2 ^ m) :
    ∃ row < 2 ^ m + 1, mirrored m e row column + 2 ^ (m - 1) = index := by
  have rows := two_pow_eq many
  have middle : ((2 ^ (m - 1) : Nat) : ℚ) = 2 ^ (m - 1) := by push_cast; rfl
  rcases Nat.lt_trichotomy index (2 ^ (m - 1)) with below | rfl | above
  · obtain ⟨count, split⟩ := Nat.exists_eq_add_of_lt below
    obtain ⟨i, place, taken⟩ := permutation.takes (by omega : 1 ≤ count + 1) (by omega)
    obtain ⟨row, found, value⟩ := mirrored_takes (e := e) many bound place (.inr rfl)
    refine ⟨row, found, ?_⟩
    rw [value, taken, ← middle, split]
    push_cast
    ring
  · refine ⟨2 ^ (m - 1), by omega, ?_⟩
    rw [mirrored_middle, zero_add, middle]
  · obtain ⟨count, split⟩ := Nat.exists_eq_add_of_lt above
    obtain ⟨i, place, taken⟩ := permutation.takes (by omega : 1 ≤ count + 1) (by omega)
    obtain ⟨row, found, value⟩ := mirrored_takes (e := e) many bound place (.inl rfl)
    refine ⟨row, found, ?_⟩
    rw [value, taken, ← middle, split]
    push_cast
    ring

def level (m : Nat) (low high : ℚ) (index : Nat) : ℚ := low + index / 2 ^ m * (high - low)

def levels (m : Nat) (low high : ℚ) : List ℚ := (List.range (2 ^ m + 1)).map (level m low high)

theorem levels_nodup (m : Nat) (order : low < high) : (levels m low high).Nodup := by
  refine List.Nodup.map (fun first second same => ?_) List.nodup_range
  have width : high - low ≠ 0 := (sub_pos.mpr order).ne'
  have power : (2 : ℚ) ^ m ≠ 0 := pow_ne_zero m two_ne_zero
  have equal := mul_right_cancel₀ width (add_left_cancel same)
  exact Nat.cast_injective ((div_left_inj' power).mp equal)

/-! The design as a whole. -/

structure IsOrthogonalDesign (m : Nat) (pMin pMax : GslVector) (design : GslMatrix) : Prop where
  size1 : design.size1 = 2 ^ m + 1
  size2 : design.size2 = 2 * m - 2
  latin : ∀ column < 2 * m - 2,
    ((List.range (2 ^ m + 1)).map fun row => design.get row column).Perm
      (levels m (limit pMin 0 column) (limit pMax 1 column))
  distinct : ∀ column < 2 * m - 2, (levels m (limit pMin 0 column) (limit pMax 1 column)).Nodup
  orthogonal : ∀ j < 2 * m - 2, ∀ k < 2 * m - 2, j ≠ k →
    ∑ row ∈ Finset.range (2 ^ m + 1),
      (design.get row j - design.get (2 ^ (m - 1)) j) *
        (design.get row k - design.get (2 ^ (m - 1)) k) = 0

theorem limit_lt (sizes : pMin.size = pMax.size)
    (ordered : ∀ column < pMin.size, pMin.get column < pMax.get column) (column : Nat) :
    limit pMin 0 column < limit pMax 1 column := by
  unfold limit
  rw [← sizes]
  split
  · exact ordered column ‹_›
  · exact zero_lt_one

theorem design_orthogonal (garbage : GslMatrix) (many : 2 ≤ m) (short : m ≤ 15)
    (permutation : IsPermutation m e) (sizes : pMin.size = pMax.size)
    (fits : pMin.size ≤ 2 * m - 2)
    (ordered : ∀ column < pMin.size, pMin.get column < pMax.get column) :
    ∃ matrix, design garbage m e pMin pMax = some matrix ∧
      IsOrthogonalDesign m pMin pMax matrix := by
  obtain ⟨matrix, built, size1, size2, entries⟩ := design_get garbage e many short sizes fits
  have rows := two_pow_eq many
  refine ⟨matrix, built, size1, size2, ?latin, ?distinct, ?orthogonal⟩
  case latin =>
    intro column bound
    have distinct := levels_nodup m (limit_lt sizes ordered column)
    refine ((List.subperm_of_subset distinct ?_).perm_of_length_le (by simp [levels])).symm
    intro value member
    obtain ⟨index, inside, rfl⟩ := List.mem_map.mp member
    obtain ⟨row, found, taken⟩ := mirrored_level many bound permutation
      (Nat.le_of_lt_succ (List.mem_range.mp inside))
    refine List.mem_map.mpr ⟨row, List.mem_range.mpr found, ?_⟩
    rw [entries row found column bound, taken, level]
  case distinct =>
    intro column bound
    exact levels_nodup m (limit_lt sizes ordered column)
  case orthogonal =>
    intro j inside k bound other
    have centred {column : Nat} (bound : column < 2 * m - 2) :
        ∀ row < 2 ^ m + 1, matrix.get row column - matrix.get (2 ^ (m - 1)) column =
          (limit pMax 1 column - limit pMin 0 column) / 2 ^ m * mirrored m e row column := by
      intro row found
      rw [entries row found column bound, entries _ (by omega) column bound, mirrored_middle]
      ring
    calc ∑ row ∈ Finset.range (2 ^ m + 1), (matrix.get row j - matrix.get (2 ^ (m - 1)) j) *
          (matrix.get row k - matrix.get (2 ^ (m - 1)) k)
        = ∑ row ∈ Finset.range (2 ^ m + 1),
            (limit pMax 1 j - limit pMin 0 j) / 2 ^ m *
              ((limit pMax 1 k - limit pMin 0 k) / 2 ^ m) *
                (mirrored m e row j * mirrored m e row k) := by
          refine Finset.sum_congr rfl fun row member => ?_
          have found := Finset.mem_range.mp member
          rw [centred inside row found, centred bound row found]
          ring
      _ = 0 := by
          rw [← Finset.mul_sum, mirrored_orthogonal many inside bound other, mul_zero]

/-- The counter of the rows never reaches their number. -/
theorem design_none (garbage : GslMatrix) (e pMin pMax : GslVector) (large : 16 ≤ m) :
    design garbage m e pMin pMax = none := by
  have long : 65536 ≤ (unitDesign garbage m e).size1 := by
    have power : 2 ^ 16 ≤ 2 ^ m := Nat.pow_le_pow_right (by omega) large
    have size : (unitDesign garbage m e).size1 = 2 ^ m + 1 := rfl
    omega
  simp only [design, repeated_none long, Option.bind_none, Option.bind_fun_none]

theorem design_orthogonal_iff (garbage : GslMatrix) (many : 2 ≤ m)
    (permutation : IsPermutation m e) (sizes : pMin.size = pMax.size)
    (fits : pMin.size ≤ 2 * m - 2)
    (ordered : ∀ column < pMin.size, pMin.get column < pMax.get column) :
    (∃ matrix, design garbage m e pMin pMax = some matrix ∧
      IsOrthogonalDesign m pMin pMax matrix) ↔ m ≤ 15 := by
  constructor
  · rintro ⟨matrix, built, _⟩
    by_contra large
    rw [design_none garbage e pMin pMax (by omega)] at built
    cases built
  · intro short
    exact design_orthogonal garbage many short permutation sizes fits ordered

theorem design_orthogonal_iff_nineLevels :
    (∃ matrix, design (GslMatrix.calloc 2 2) 3 ⟨4, fun i => [3, 1, 4, 2].getD i 0⟩
        ⟨1, fun _ => 2⟩ ⟨1, fun _ => 5⟩ = some matrix ∧
      IsOrthogonalDesign 3 ⟨1, fun _ => 2⟩ ⟨1, fun _ => 5⟩ matrix) ↔ 3 ≤ 15 := by
  refine design_orthogonal_iff _ (by decide) ?_ rfl (by decide) fun _ _ => by norm_num
  unfold IsPermutation
  decide +kernel

def inOrder (count : Nat) : GslVector := ⟨count, fun i => (1 + i : Nat)⟩

theorem inOrder_permutation (m : Nat) : IsPermutation m (inOrder (2 ^ (m - 1))) := by
  rw [IsPermutation, List.range'_eq_map_range, List.map_map]
  exact List.Perm.refl _

theorem design_orthogonal_not_always :
    ¬∀ (garbage : GslMatrix) (m : Nat) (e pMin pMax : GslVector), 2 ≤ m → IsPermutation m e →
      pMin.size = pMax.size → pMin.size ≤ 2 * m - 2 →
      (∀ column < pMin.size, pMin.get column < pMax.get column) →
      ∃ matrix, design garbage m e pMin pMax = some matrix ∧
        IsOrthogonalDesign m pMin pMax matrix := by
  intro always
  obtain ⟨matrix, built, _⟩ := always (GslMatrix.calloc 2 2) 16 (inOrder (2 ^ 15))
    ⟨1, fun _ => 0⟩ ⟨1, fun _ => 1⟩ (by decide) (inOrder_permutation 16) rfl (by decide)
    fun _ _ => by norm_num
  rw [design_none _ _ _ _ (Nat.le_refl 16)] at built
  cases built

end LHS

end RlAqs
