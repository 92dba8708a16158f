import RlAqs.Learner.ProjectionCore

/-!
The loop finds the projection with every pivot exactly when the vector is `PivotSafe`. A low
element that is once taken stays taken and lowers the threshold for good.
-/

namespace RlAqs

namespace Simplex

section Exact

variable {vec : List ℚ} {z theta s rho : ℚ} {u chosen : List Nat} {pivot : Nat}

theorem Taken.gap_eq_sum (taken : Taken vec u chosen s rho) (pivot : Nat) :
    gap vec u chosen pivot =
      ∑ index ∈ (chosen ++ u.filter fun index => pivot ≤ index).toFinset,
        (vec.getD index 0 - vec.getD pivot 0) := by
  have once : (chosen ++ u.filter fun index => pivot ≤ index).Nodup :=
    taken.simple.sublist (List.filter_sublist.append_left chosen)
  rw [gap, List.sum_toFinset _ once]

theorem Taken.candidates_subset (taken : Taken vec u chosen s rho) (pivot : Nat) :
    (chosen ++ u.filter fun index => pivot ≤ index).toFinset ⊆ Finset.range vec.length := by
  intro index member
  rw [List.mem_toFinset, List.mem_append, List.mem_filter] at member
  apply Finset.mem_range.mpr
  apply taken.inside
  rw [List.mem_append]
  exact member.imp_right And.left

theorem Taken.gap_le_excess (taken : Taken vec u chosen s rho) (pivot : Nat) :
    gap vec u chosen pivot ≤ excess vec pivot := by
  rw [taken.gap_eq_sum, excess_eq_surplus]
  exact Threshold.sum_le_surplus (taken.candidates_subset pivot) _

/-! The end of the loop. -/

theorem Taken.sum_chosen (taken : Taken vec [] chosen s rho) (level : ℚ) :
    ∑ index ∈ chosen.toFinset, (vec.getD index 0 - level) = s - rho * level := by
  have once : chosen.Nodup := by simpa using taken.simple
  rw [List.sum_toFinset _ once, sum_sub_const, taken.sum, taken.count]

theorem Taken.chosen_subset (taken : Taken vec [] chosen s rho) :
    chosen.toFinset ⊆ Finset.range vec.length := by
  intro index member
  exact Finset.mem_range.mpr (taken.inside index (by simpa using member))

theorem Taken.rho_pos (taken : Taken vec [] chosen s rho) : 0 < rho := by
  have some_taken := taken.some_left.resolve_right (by simp)
  rw [taken.count]
  exact_mod_cast List.length_pos_iff.mpr some_taken

theorem Taken.theta_eq (taken : Taken vec [] chosen s rho)
    (threshold : HasThreshold vec z theta) (sound : ∀ index ∈ chosen, ¬Low vec z index)
    (complete : ∀ index < vec.length, High vec z index → index ∈ chosen) :
    (s - z) / rho = theta := by
  have inside := taken.chosen_subset
  have above : ∀ index ∈ chosen.toFinset, theta ≤ vec.getD index 0 := by
    intro index member
    have not_low := sound index (List.mem_toFinset.mp member)
    rw [threshold.low_iff (Finset.mem_range.mp (inside member))] at not_low
    exact not_lt.mp not_low
  have below : ∀ index ∈ Finset.range vec.length, index ∉ chosen.toFinset →
      vec.getD index 0 ≤ theta := by
    intro index member out
    have bound := Finset.mem_range.mp member
    by_contra above
    exact out (List.mem_toFinset.mpr
      (complete index bound ((threshold.high_iff bound).mpr (not_le.mp above))))
  have sum := Threshold.sum_eq_surplus (v := fun i => vec.getD i 0) inside above below
  rw [taken.sum_chosen, threshold.sum] at sum
  rw [div_eq_iff taken.rho_pos.ne']
  linarith

theorem Taken.theta_ne (taken : Taken vec [] chosen s rho)
    (threshold : HasThreshold vec z theta) {low : Nat} (member : low ∈ chosen)
    (is_low : Low vec z low) : (s - z) / rho ≠ theta := by
  intro same
  rw [div_eq_iff taken.rho_pos.ne'] at same
  have inside := taken.chosen_subset
  have listed := List.mem_toFinset.mpr member
  have sum := taken.sum_chosen theta
  rw [← Finset.add_sum_erase _ _ listed] at sum
  have others := Threshold.sum_le_surplus (v := fun i => vec.getD i 0)
    ((Finset.erase_subset low chosen.toFinset).trans inside) theta
  rw [threshold.sum] at others
  have below := (threshold.low_iff (Finset.mem_range.mp (inside listed))).mp is_low
  linarith

theorem projectionDuchi_eq {draws : Nat → Nat} (short : vec.length < 65536)
    (looped : pivotLoop vec z vec.length draws (List.range vec.length) 0 0 = some (s, rho))
    (taken : Taken vec [] chosen s rho) :
    projectionDuchi vec z 0 draws = some (cutOff vec ((s - z) / rho)) := by
  simp [projectionDuchi, indices, short, looped, divide, taken.rho_pos.ne', cutOff]

theorem cutOff_inj {other : ℚ} (threshold : HasThreshold vec z theta)
    (same : cutOff vec other = cutOff vec theta) : other = theta := by
  have sum := congrArg List.sum same
  rw [sum_cutOff, sum_cutOff, threshold.sum] at sum
  exact Threshold.threshold_unique threshold.positive sum threshold.sum

/-! A safe vector: whatever is drawn, no low element is taken and no high one refused. -/

structure Fair (vec : List ℚ) (z : ℚ) (u chosen : List Nat) : Prop where
  above : ∀ taken ∈ chosen, ∀ index ∈ u, index < taken
  sound : ∀ index ∈ chosen, ¬Low vec z index
  refused : ∀ index < vec.length, index ∉ chosen → index ∉ u →
    ¬High vec z index ∧
      (Level vec z index → ∀ high < vec.length, High vec z high → index < high)

theorem mem_candidates {index : Nat} :
    index ∈ (chosen ++ u.filter fun index => pivot ≤ index).toFinset ↔
      index ∈ chosen ∨ index ∈ u ∧ pivot ≤ index := by
  rw [List.mem_toFinset, List.mem_append, List.mem_filter, decide_eq_true_eq]

theorem sum_le_of_exchange {first second : Finset Nat} {term : Nat → ℚ}
    (lost : ∀ index ∈ first, index ∉ second → term index ≤ 0)
    (gained : ∀ index ∈ second, index ∉ first → 0 ≤ term index) :
    ∑ index ∈ first, term index ≤ ∑ index ∈ second, term index := by
  rw [← Finset.sum_inter_add_sum_sdiff first second, ← Finset.sum_inter_add_sum_sdiff second first,
    Finset.inter_comm second first]
  have less : ∑ index ∈ first \ second, term index ≤ 0 := by
    apply Finset.sum_nonpos
    intro index member
    exact lost index (Finset.mem_sdiff.mp member).1 (Finset.mem_sdiff.mp member).2
  have more : 0 ≤ ∑ index ∈ second \ first, term index := by
    apply Finset.sum_nonneg
    intro index member
    exact gained index (Finset.mem_sdiff.mp member).1 (Finset.mem_sdiff.mp member).2
  linarith

theorem PivotSafe.low_refused (safe : PivotSafe vec z) (threshold : HasThreshold vec z theta)
    (taken : Taken vec u chosen s rho) (fair : Fair vec z u chosen) (member : pivot ∈ u)
    (is_low : Low vec z pivot) : z ≤ gap vec u chosen pivot := by
  have bound := taken.inside pivot (List.mem_append_right _ member)
  have pivot_below := (threshold.low_iff bound).mp is_low
  have least := safe.refused pivot bound is_low
  rw [← List.sum_toFinset _ (List.nodup_range.filter _)] at least
  apply least.trans
  rw [taken.gap_eq_sum]
  apply sum_le_of_exchange
  · intro index kept out
    simp only [List.mem_toFinset, List.mem_filter, List.mem_range, decide_eq_true_eq] at kept
    obtain ⟨inside, later, counted⟩ := kept
    rw [mem_candidates, not_or] at out
    have gone := fair.refused index inside out.1 fun present => out.2 ⟨present, later⟩
    have not_level : ¬Level vec z index := fun level => counted.2 ⟨level, gone.2 level⟩
    rw [threshold.high_iff inside] at gone
    rw [threshold.level_iff inside] at not_level
    have below : vec.getD index 0 < theta := lt_of_le_of_ne (not_lt.mp gone.1) not_level
    have smaller := counted.1
    simp only [not_and, not_lt] at smaller
    exact sub_nonpos.mpr (smaller ((threshold.low_iff inside).mpr below))
  · intro index present out
    have inside := Finset.mem_range.mp (taken.candidates_subset pivot present)
    have later : pivot ≤ index := by
      rw [mem_candidates] at present
      rcases present with old | new
      · exact (fair.above index old pivot member).le
      · exact new.2
    simp only [List.mem_toFinset, List.mem_filter, List.mem_range, decide_eq_true_eq, inside, later,
      true_and] at out
    rw [Kept, not_and_or, not_not, not_not] at out
    rcases out with larger | level
    · exact sub_nonneg.mpr larger.2.le
    · rw [(threshold.level_iff inside).mp level.1]
      exact sub_nonneg.mpr pivot_below.le

theorem Fair.accept (safe : PivotSafe vec z) (threshold : HasThreshold vec z theta)
    (taken : Taken vec u chosen s rho) (fair : Fair vec z u chosen) (member : pivot ∈ u)
    (passed : gap vec u chosen pivot < z) :
    Fair vec z (u.filter fun index => index < pivot)
      (chosen ++ u.filter fun index => pivot ≤ index) := by
  have not_low : ¬Low vec z pivot := fun is_low =>
    absurd (safe.low_refused threshold taken fair member is_low) (not_le.mpr passed)
  refine ⟨?_, ?_, ?_⟩
  · intro top listed index left
    simp only [List.mem_filter, decide_eq_true_eq] at left
    rw [List.mem_append, List.mem_filter, decide_eq_true_eq] at listed
    rcases listed with old | new
    · exact fair.above top old index left.1
    · exact left.2.trans_le new.2
  · intro index listed is_low
    rw [List.mem_append, List.mem_filter, decide_eq_true_eq] at listed
    rcases listed with old | new
    · exact fair.sound index old is_low
    · have bound := taken.inside index (List.mem_append_right _ new.1)
      rcases new.2.eq_or_lt with same | earlier
      · exact not_low (same ▸ is_low)
      · exact not_low (safe.split index bound is_low pivot earlier)
  · intro index bound out left
    simp only [List.mem_append, List.mem_filter, decide_eq_true_eq, not_or] at out left
    apply fair.refused index bound out.1
    intro present
    rcases Nat.lt_or_ge index pivot with below | later
    · exact left ⟨present, below⟩
    · exact out.2 ⟨present, later⟩

theorem Taken.gap_lt_of_missing (taken : Taken vec u chosen s rho)
    (threshold : HasThreshold vec z theta) {high : Nat} (bound : high < vec.length)
    (is_high : High vec z high) (level : vec.getD pivot 0 = theta) (out : high ∉ chosen)
    (before : high < pivot) : gap vec u chosen pivot < z := by
  rw [taken.gap_eq_sum, level]
  have missing : high ∉ (chosen ++ u.filter fun index => pivot ≤ index).toFinset := by
    rw [mem_candidates, not_or]
    exact ⟨out, fun present => absurd present.2 (not_le.mpr before)⟩
  have larger := Threshold.sum_le_surplus (v := fun i => vec.getD i 0)
    (Finset.insert_subset (Finset.mem_range.mpr bound) (taken.candidates_subset pivot)) theta
  rw [Finset.sum_insert missing, threshold.sum] at larger
  have above := (threshold.high_iff bound).mp is_high
  linarith

theorem Fair.reject (threshold : HasThreshold vec z theta)
    (taken : Taken vec u chosen s rho) (fair : Fair vec z u chosen) (member : pivot ∈ u)
    (failed : ¬gap vec u chosen pivot < z) : Fair vec z (u.erase pivot) chosen := by
  refine ⟨?_, fair.sound, ?_⟩
  · intro top listed index left
    exact fair.above top listed index (List.mem_of_mem_erase left)
  · intro index bound out left
    by_cases same : index = pivot
    · subst same
      constructor
      · intro is_high
        exact failed ((taken.gap_le_excess index).trans_lt is_high)
      · intro level high inside is_high
        by_contra before
        have different : high ≠ index := by
          rintro rfl
          exact absurd level (ne_of_lt is_high)
        have earlier : high < index := by omega
        have out' : high ∉ chosen := fun old => by
          have above := fair.above high old index member
          omega
        exact failed (taken.gap_lt_of_missing threshold inside is_high
          ((threshold.level_iff bound).mp level) out' earlier)
    · apply fair.refused index bound out
      intro present
      exact left ((List.mem_erase_of_ne same).mpr present)

theorem fair_start (vec : List ℚ) (z : ℚ) : Fair vec z (List.range vec.length) [] := by
  refine ⟨?_, ?_, ?_⟩
  · intro taken listed
    cases listed
  · intro index listed
    cases listed
  · intro index bound _ left
    exact absurd (List.mem_range.mpr bound) left

theorem PivotSafe.projects (safe : PivotSafe vec z) (some_element : vec ≠ []) (positive : 0 < z)
    (draws : Nat → Nat) :
    ∃ point, projectionDuchi vec z 0 draws = some point ∧ IsProjection vec point z := by
  obtain ⟨theta, threshold⟩ := exists_hasThreshold some_element positive
  obtain ⟨chosen, s, rho, looped, taken, fair⟩ := pivotLoop_spec positive (Fair vec z)
    (fun _ _ _ _ _ taken fair member passed => fair.accept safe threshold taken member passed)
    (fun _ _ _ _ _ taken fair member failed => fair.reject threshold taken member failed)
    draws List.length_range.le (taken_start some_element) (fair_start vec z)
  refine ⟨_, projectionDuchi_eq safe.short looped taken, ?_⟩
  have complete : ∀ index < vec.length, High vec z index → index ∈ chosen := by
    intro index bound is_high
    by_contra out
    exact (fair.refused index bound out (List.not_mem_nil)).1 is_high
  rw [taken.theta_eq threshold fair.sound complete]
  exact threshold.isProjection

/-! A vector that is not safe: some pivots take a low element. -/

def Spoils (vec : List ℚ) (z : ℚ) (fuel : Nat) (u : List Nat) (s rho : ℚ) : Prop :=
  ∃ draws chosen' s' rho', pivotLoop vec z fuel draws u s rho = some (s', rho') ∧
    Taken vec [] chosen' s' rho' ∧ ∃ low ∈ chosen', Low vec z low

theorem spoils_of_taken (positive : 0 < z) {fuel : Nat} (enough : u.length ≤ fuel)
    (taken : Taken vec u chosen s rho) {low : Nat} (member : low ∈ chosen)
    (is_low : Low vec z low) : Spoils vec z fuel u s rho := by
  obtain ⟨chosen', s', rho', looped, ended, kept⟩ := pivotLoop_spec positive
    (fun _ chosen => low ∈ chosen)
    (fun _ _ _ _ _ _ listed _ _ => List.mem_append_left _ listed)
    (fun _ _ _ _ _ _ listed _ _ => listed) (fun _ => 0) enough taken member
  exact ⟨fun _ => 0, chosen', s', rho', looped, ended, low, kept, is_low⟩

def drawFirst (u : List Nat) (pivot : Nat) (later : Nat → Nat) : Nat → Nat
  | 0 => u.idxOf pivot
  | round + 1 => later round

theorem pivotLoop_drawFirst (taken : Taken vec u chosen s rho) (member : pivot ∈ u) (fuel : Nat)
    (later : Nat → Nat) :
    pivotLoop vec z (fuel + 1) (drawFirst u pivot later) u s rho =
      if gap vec u chosen pivot < z then
        pivotLoop vec z fuel later (u.filter fun index => index < pivot)
          (s + total vec (u.filter fun index => pivot ≤ index))
          (rho + (u.filter fun index => pivot ≤ index).length)
      else pivotLoop vec z fuel later (u.erase pivot) s rho := by
  have place := List.idxOf_lt_length_iff.mpr member
  have simple : u.Nodup := (List.nodup_append.mp taken.simple).2.1
  have drawn : u.getD (u.idxOf pivot) 0 = pivot := by
    rw [List.getD_eq_getElem u 0 place]
    exact List.getElem_idxOf place
  have gone := erase_pivot simple place
  have test := taken.gap_eq pivot
  cases u with
  | nil => cases member
  | cons first rest =>
      simp only [pivotLoop, drawFirst, Nat.mod_eq_of_lt place, drawn] at gone ⊢
      rw [gone]
      simp only [total] at test ⊢
      rw [test]

theorem spoils_of_accepted (positive : 0 < z) {fuel : Nat} (enough : u.length ≤ fuel + 1)
    (taken : Taken vec u chosen s rho) (member : pivot ∈ u)
    (passed : gap vec u chosen pivot < z) {low : Nat} (listed : low ∈ u) (later : pivot ≤ low)
    (is_low : Low vec z low) : Spoils vec z (fuel + 1) u s rho := by
  have fewer := below_length_lt member
  have group : low ∈ chosen ++ u.filter fun index => pivot ≤ index := by
    simp [listed, later]
  obtain ⟨draws, spoiled⟩ := spoils_of_taken positive (Nat.le_of_lt_succ (fewer.trans_le enough))
    (taken.accept member) group is_low
  refine ⟨drawFirst u pivot draws, ?_⟩
  rw [pivotLoop_drawFirst taken member, if_pos passed]
  exact spoiled

theorem spoils_of_refused {fuel : Nat} (taken : Taken vec u chosen s rho) (member : pivot ∈ u)
    (failed : ¬gap vec u chosen pivot < z)
    (spoils : Spoils vec z fuel (u.erase pivot) s rho) :
    Spoils vec z (fuel + 1) u s rho := by
  obtain ⟨draws, spoiled⟩ := spoils
  refine ⟨drawFirst u pivot draws, ?_⟩
  rw [pivotLoop_drawFirst taken member, if_neg failed]
  exact spoiled

def Refusable (vec : List ℚ) (z : ℚ) (index : Nat) : Prop :=
  Low vec z index ∨
    Level vec z index ∧ ∀ high < vec.length, High vec z high → index < high

theorem Taken.level_refused (taken : Taken vec u [] s rho) (threshold : HasThreshold vec z theta)
    (split : ∀ index < vec.length, Low vec z index → ∀ earlier < index, Low vec z earlier)
    (member : pivot ∈ u) (level : Level vec z pivot)
    (first : ∀ high < vec.length, High vec z high → pivot < high)
    (highs : ∀ high < vec.length, High vec z high → high ∈ u) : ¬gap vec u [] pivot < z := by
  have inside : ∀ index ∈ u, index < vec.length :=
    fun index listed => taken.inside index (List.mem_append_right _ listed)
  have value := (threshold.level_iff (inside pivot member)).mp level
  have sum := Threshold.sum_eq_surplus (v := fun i => vec.getD i 0)
    (taken.candidates_subset pivot)
    (by
      intro index listed
      simp only [mem_candidates, List.not_mem_nil, false_or] at listed
      by_contra below
      have is_low := (threshold.low_iff (inside index listed.1)).mpr (not_le.mp below)
      rcases listed.2.eq_or_lt with same | earlier
      · rw [same] at level
        exact absurd level (ne_of_gt is_low)
      · exact absurd level (ne_of_gt (split index (inside index listed.1) is_low pivot earlier)))
    (by
      intro index listed out
      by_contra above
      have bound := Finset.mem_range.mp listed
      have is_high := (threshold.high_iff bound).mpr (not_le.mp above)
      simp only [mem_candidates, List.not_mem_nil, false_or, not_and] at out
      exact out (highs index bound is_high) (first index bound is_high).le)
  rw [threshold.sum] at sum
  rw [taken.gap_eq_sum, value, sum]
  exact lt_irrefl z

/-- Refusing elements one after the other, unless a low one among them is taken on the way. -/
theorem spoils_of_diff (threshold : HasThreshold vec z theta)
    (split : ∀ index < vec.length, Low vec z index → ∀ earlier < index, Low vec z earlier)
    {fuel : Nat} (refused : List Nat) (simple : refused.Nodup) (listed : refused ⊆ u)
    (refusable : ∀ index ∈ refused, Refusable vec z index)
    (highs : ∀ high < vec.length, High vec z high → high ∈ u)
    (enough : u.length ≤ fuel + refused.length) (taken : Taken vec u [] s rho)
    (spoils : Taken vec (u.diff refused) [] s rho → Spoils vec z fuel (u.diff refused) s rho) :
    Spoils vec z (fuel + refused.length) u s rho := by
  induction refused generalizing u with
  | nil => exact spoils taken
  | cons index rest ih =>
      rw [List.diff_cons] at spoils
      obtain ⟨absent, once⟩ := List.nodup_cons.mp simple
      have member := listed List.mem_cons_self
      by_cases passed : gap vec u [] index < z
      · rcases refusable index List.mem_cons_self with is_low | level
        · exact spoils_of_accepted threshold.positive enough taken member passed member
            (le_refl index) is_low
        · exact absurd passed (taken.level_refused threshold split member level.1 level.2 highs)
      · apply spoils_of_refused taken member passed
        have length := List.length_erase_of_mem member
        have taken' := taken.refuse threshold.positive member passed
        apply ih once _ (fun other inside => refusable other (List.mem_cons_of_mem _ inside)) _ _
          taken' spoils
        · intro other inside
          have different : other ≠ index := fun same => absent (same ▸ inside)
          exact (List.mem_erase_of_ne different).mpr (listed (List.mem_cons_of_mem _ inside))
        · intro high bound is_high
          have different : high ≠ index := by
            rintro rfl
            rcases refusable high List.mem_cons_self with is_low | level
            · exact lt_asymm is_low is_high
            · exact absurd level.1 (ne_of_lt is_high)
          exact (List.mem_erase_of_ne different).mpr (highs high bound is_high)
        · simp only [List.length_cons] at enough
          omega

/-- What the loop leaves is the projection only if no low element is ever taken. -/
theorem not_spoils (some_element : vec ≠ []) (positive : 0 < z) (short : vec.length < 65536)
    (projects : ∀ draws, ∃ point, projectionDuchi vec z 0 draws = some point ∧
      IsProjection vec point z) :
    ¬Spoils vec z vec.length (List.range vec.length) 0 0 := by
  rintro ⟨draws, chosen, s, rho, looped, taken, low, member, is_low⟩
  obtain ⟨theta, threshold⟩ := exists_hasThreshold some_element positive
  obtain ⟨point, projection, correct⟩ := projects draws
  rw [projectionDuchi_eq short looped taken, Option.some.injEq] at projection
  rw [← projection] at correct
  exact taken.theta_ne threshold member is_low
    (cutOff_inj threshold (correct.unique threshold.isProjection))

/-- A low element behind another one: that other one drawn first takes both. -/
theorem split_of_not_spoils (threshold : HasThreshold vec z theta) (some_element : vec ≠ [])
    (kept : ¬Spoils vec z vec.length (List.range vec.length) 0 0) :
    ∀ index < vec.length, Low vec z index → ∀ earlier < index, Low vec z earlier := by
  intro index bound is_low earlier before
  by_contra not_low
  have taken := taken_start some_element
  have inside := before.trans bound
  have level : theta ≤ vec.getD earlier 0 := by
    rw [threshold.low_iff inside] at not_low
    exact not_lt.mp not_low
  have member := List.mem_range.mpr inside
  have below := (threshold.low_iff bound).mp is_low
  have group : index ∈ ([] ++ (List.range vec.length).filter fun index =>
      earlier ≤ index).toFinset := by
    rw [mem_candidates]
    exact Or.inr ⟨List.mem_range.mpr bound, before.le⟩
  have passed : gap vec (List.range vec.length) [] earlier < z := by
    rw [taken.gap_eq_sum]
    have less : ∀ other ∈ ([] ++ (List.range vec.length).filter fun index =>
        earlier ≤ index).toFinset,
        vec.getD other 0 - vec.getD earlier 0 ≤ vec.getD other 0 - theta :=
      fun other _ => by linarith
    have others := Threshold.sum_le_surplus (v := fun i => vec.getD i 0)
      ((Finset.erase_subset index _).trans (taken.candidates_subset earlier)) theta
    have sum := Finset.add_sum_erase _ (fun other => vec.getD other 0 - theta) group
    rw [threshold.sum] at others
    have bounded := Finset.sum_le_sum less
    linarith
  obtain ⟨fuel, size⟩ := Nat.exists_eq_succ_of_ne_zero (Nat.ne_of_gt (Nat.zero_lt_of_lt bound))
  have enough : (List.range vec.length).length ≤ fuel + 1 := by
    rw [List.length_range, size]
  have spoils := spoils_of_accepted threshold.positive enough taken member passed
    (List.mem_range.mpr bound) before.le is_low
  exact kept (size.symm ▸ spoils)

theorem kept_filter (vec : List ℚ) (z : ℚ) (pivot : Nat) :
    (((List.range vec.length).diff ((List.range vec.length).filter fun index =>
      pivot ≤ index ∧ ¬Kept vec z pivot index)).filter fun index => pivot ≤ index) =
        (List.range vec.length).filter fun index => pivot ≤ index ∧ Kept vec z pivot index := by
  rw [List.nodup_range.sdiff_eq_filter, List.filter_filter]
  apply List.filter_congr
  intro index member
  by_cases later : pivot ≤ index
  · by_cases counted : Kept vec z pivot index <;> simp [later, counted, List.mem_range.mp member]
  · simp [later]

theorem refused_of_not_spoils (threshold : HasThreshold vec z theta) (some_element : vec ≠ [])
    (split : ∀ index < vec.length, Low vec z index → ∀ earlier < index, Low vec z earlier)
    (kept : ¬Spoils vec z vec.length (List.range vec.length) 0 0) :
    ∀ pivot < vec.length, Low vec z pivot →
      z ≤ (((List.range vec.length).filter fun index =>
        pivot ≤ index ∧ Kept vec z pivot index).map fun index =>
          vec.getD index 0 - vec.getD pivot 0).sum := by
  intro pivot bound is_low
  by_contra fails
  generalize choice : (List.range vec.length).filter
    (fun index => pivot ≤ index ∧ ¬Kept vec z pivot index) = refused
  have filtered := kept_filter vec z pivot
  rw [choice] at filtered
  have member : pivot ∈ (List.range vec.length).diff refused := by
    rw [List.nodup_range.mem_sdiff_iff]
    refine ⟨List.mem_range.mpr bound, ?_⟩
    rw [← choice]
    have counted : Kept vec z pivot pivot :=
      ⟨fun larger => lt_irrefl _ larger.2, fun level => absurd level.1 (ne_of_gt is_low)⟩
    simp [counted]
  have simple : refused.Nodup := choice ▸ List.nodup_range.filter _
  have within : refused ⊆ List.range vec.length := choice ▸ List.filter_subset_self _
  have lengths : ((List.range vec.length).diff refused).length + refused.length = vec.length := by
    have perm := List.subperm_append_diff_self_of_count_le
      (List.subperm_ext_iff.mp (List.subperm_of_subset simple within))
    have total_length := perm.length_eq
    rw [List.length_append, List.length_range] at total_length
    omega
  have refusable : ∀ index ∈ refused, Refusable vec z index := by
    intro index listed
    rw [← choice] at listed
    simp only [List.mem_filter, decide_eq_true_eq] at listed
    have dropped := listed.2.2
    rw [Kept, not_and_or, not_not, not_not] at dropped
    exact dropped.imp And.left id
  have highs : ∀ high < vec.length, High vec z high → high ∈ List.range vec.length :=
    fun high inside _ => List.mem_range.mpr inside
  obtain ⟨fuel, size⟩ := Nat.exists_eq_succ_of_ne_zero (List.length_pos_of_mem member).ne'
  have length_range : (List.range vec.length).length = vec.length := List.length_range
  have spoils : Spoils vec z (fuel + 1 + refused.length) (List.range vec.length) 0 0 := by
    apply spoils_of_diff threshold split refused simple within refusable highs (by omega)
      (taken_start some_element)
    intro taken
    have passed : gap vec ((List.range vec.length).diff refused) [] pivot < z := by
      rw [gap, List.nil_append, filtered]
      exact not_le.mp fails
    exact spoils_of_accepted threshold.positive (by omega) taken member passed member
      (le_refl pivot) is_low
  have all_fuel : fuel + 1 + refused.length = vec.length := by omega
  exact kept (all_fuel ▸ spoils)

/-- The loop of the source computes the projection whatever is drawn on the safe vectors only. -/
theorem projectionDuchi_projects_iff (vec : List ℚ) (z : ℚ) (some_element : vec ≠ [])
    (positive : 0 < z) :
    (∀ draws, ∃ point, projectionDuchi vec z 0 draws = some point ∧ IsProjection vec point z) ↔
      PivotSafe vec z := by
  constructor
  · intro projects
    obtain ⟨theta, threshold⟩ := exists_hasThreshold some_element positive
    have short : vec.length < 65536 := by
      by_contra long
      obtain ⟨point, projection, _⟩ := projects fun _ => 0
      simp [projectionDuchi, indices, long] at projection
    have kept := not_spoils some_element positive short projects
    have split := split_of_not_spoils threshold some_element kept
    exact ⟨short, split, refused_of_not_spoils threshold some_element split kept⟩
  · intro safe draws
    exact safe.projects some_element positive draws

theorem projectionDuchi_projects_iff_sorted :
    PivotSafe [0, 2] 1 ∧ ∀ draws, ∃ point, projectionDuchi [0, 2] 1 0 draws = some point ∧
      IsProjection [0, 2] point 1 := by
  have safe : PivotSafe [0, 2] 1 := ⟨by decide, by decide +kernel, by decide +kernel⟩
  exact ⟨safe, (projectionDuchi_projects_iff [0, 2] 1 (by simp) one_pos).mpr safe⟩

/-- The low element stands behind the high one, and every pivot takes both. -/
theorem projectionDuchi_misses :
    ¬∀ draws, ∃ point, projectionDuchi [2, 0] 1 0 draws = some point ∧
      IsProjection [2, 0] point 1 := by
  intro projects
  obtain ⟨point, projection, correct⟩ := projects fun _ => 0
  have left : projectionDuchi [2, 0] 1 0 (fun _ => 0) = some [3 / 2, 0] := by decide +kernel
  rw [left, Option.some.injEq] at projection
  have sum := correct.sum
  rw [← projection] at sum
  norm_num at sum

end Exact

end Simplex

end RlAqs
