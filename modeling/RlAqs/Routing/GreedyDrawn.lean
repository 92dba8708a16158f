import RlAqs.Learner.StrategyKept
import RlAqs.Routing.RoutingCore

/-!
The epsilon-greedy policy records the probabilities it draws with: a best action is taken on all
draws up to the recorded one, and beyond it each integer draw stands for another action.
-/

namespace RlAqs

section greedy

variable {sorting : Sorting} {config : PolicyConfig} {maps : EdgeMaps} {source : UInt16}
  {values others : Values} {greedy : UInt16 × ℚ} {draws : PolicyDraws}

def shares (epsilon : ℚ) (greedy : UInt16 × ℚ) (others : Values) : Values :=
  (greedy.1, 1 - epsilon) :: others.map fun value => (value.1, epsilon / others.length)

theorem shares_names (epsilon : ℚ) :
    (shares epsilon greedy others).map Prod.fst = (greedy :: others).map Prod.fst := by
  simp [shares]

theorem shares_sum {epsilon : ℚ} (some_other : others ≠ []) :
    ((shares epsilon greedy others).map Prod.snd).sum = 1 := by
  have length : (others.length : ℚ) ≠ 0 := by
    exact_mod_cast (List.length_pos_iff.mpr some_other).ne'
  have each : (others.map fun _ => epsilon / others.length).sum = epsilon := by
    rw [List.map_const', List.sum_replicate, nsmul_eq_mul, mul_div_cancel₀ _ length]
  rw [shares, List.map_cons, List.sum_cons, List.map_map]
  exact (congrArg _ each).trans (sub_add_cancel 1 epsilon)

theorem epsilonGreedy_many (ordered : sorting.sort values = greedy :: others)
    (some_other : others ≠ []) (small : values.length < 65536) :
    epsilonGreedy sorting config maps source values draws =
      some (maps.setWeights source (shares config.epsilon greedy others),
        if draws.uniform ≤ 1 - config.epsilon then greedy.1
        else (others.getD (draws.pivots 0 % others.length) (0, 0)).1) := by
  have length : values.length = others.length + 1 := by
    rw [← (sorting.sort_perm values).length_eq, ordered, List.length_cons]
  have positive := List.length_pos_iff.mpr some_other
  have index : (UInt16.ofNat (draws.pivots 0 % others.length + 1)).toNat =
      draws.pivots 0 % others.length + 1 := by
    have less := Nat.mod_lt (draws.pivots 0) positive
    rw [UInt16.toNat_ofNat']
    exact Nat.mod_eq_of_lt (by omega)
  have cast : ((others.length + 1 : Nat) : ℚ) - 1 = others.length := by push_cast; ring
  have recorded : (greedy :: others).mapIdx (fun i value => (value.1,
      if i = 0 then 1 - config.epsilon else config.epsilon / others.length)) =
        shares config.epsilon greedy others := by
    rw [List.mapIdx_cons, shares]
    refine congrArg _ (List.ext_getElem (by simp) fun i _ _ => ?_)
    simp
  cases values with
  | nil => simp at length
  | cons first rest =>
      cases rest with
      | nil =>
          rw [List.length_singleton] at length
          omega
      | cons second rest =>
          have few : (greedy :: others).length < 65536 := by
            rw [List.length_cons, ← length]
            exact small
          simp only [epsilonGreedy, ordered]
          rw [if_pos few]
          simp only [List.length_cons, Nat.add_sub_cancel, index, cast, recorded,
            List.headD_cons, List.getD_cons_succ]

/-- Whatever the values are, what a call records does not depend on its draws. A best action is
recorded with all but epsilon, and taken on the draws up to that; the others are recorded with
equal shares of epsilon, and beyond it each integer draw takes another one of them. -/
theorem call_draws_greedy (sorting : Sorting) (config : PolicyConfig) (maps : EdgeMaps)
    (source : UInt16) (many : 2 ≤ values.length) (small : values.length < 65536)
    (distinct : (values.map Prod.fst).Nodup) :
    ∃ after, ∃ greedy ∈ values, ∃ choose : ℚ → Nat → UInt16,
      (∀ draws, epsilonGreedy sorting config maps source values draws =
        some (after, choose draws.uniform (draws.pivots 0))) ∧
      (∀ value ∈ values, value.2 ≤ greedy.2) ∧
      (values.map fun value => after.weight (edgeTo source value)).sum = 1 ∧
      after.weight (edgeTo source greedy) = 1 - config.epsilon ∧
      (∀ uniform ≤ after.weight (edgeTo source greedy), ∀ pivot,
        choose uniform pivot = greedy.1) ∧
      ∀ value ∈ values, value ≠ greedy →
        after.weight (edgeTo source value) = config.epsilon / (values.length - 1 : Nat) ∧
        ∀ uniform > after.weight (edgeTo source greedy),
          ∃! pivot, pivot < values.length - 1 ∧ choose uniform pivot = value.1 := by
  cases ordered : sorting.sort values with
  | nil =>
      have length := (sorting.sort_perm values).length_eq
      rw [ordered, List.length_nil] at length
      omega
  | cons greedy others =>
      have perm : (greedy :: others).Perm values := ordered ▸ sorting.sort_perm values
      have best := (List.pairwise_cons.mp (ordered ▸ sorting.sort_descending values)).1
      have length : others.length = values.length - 1 := by
        rw [← perm.length_eq, List.length_cons, Nat.add_sub_cancel]
      have some_other : others ≠ [] := List.length_pos_iff.mp (by omega)
      have distinct' : ((greedy :: others).map Prod.fst).Nodup :=
        (perm.map _).nodup_iff.mpr distinct
      have recorded : ((shares config.epsilon greedy others).map Prod.fst).Nodup := by
        rw [shares_names]
        exact distinct'
      have first : (maps.setWeights source (shares config.epsilon greedy others)).weight
          (edgeTo source greedy) = 1 - config.epsilon :=
        setWeights_mem maps source recorded List.mem_cons_self
      have other (value : UInt16 × ℚ) (member : value ∈ others) :
          (maps.setWeights source (shares config.epsilon greedy others)).weight
            (edgeTo source value) = config.epsilon / others.length :=
        setWeights_mem maps source recorded (List.mem_cons_of_mem _
          (List.mem_map.mpr ⟨value, member, rfl⟩))
      refine ⟨_, greedy, perm.mem_iff.mp List.mem_cons_self,
        fun uniform pivot => if uniform ≤ 1 - config.epsilon then greedy.1
          else (others.getD (pivot % others.length) (0, 0)).1,
        fun draws => epsilonGreedy_many ordered some_other small, ?_, ?_, first, ?_, ?_⟩
      · intro value member
        rcases List.mem_cons.mp (perm.mem_iff.mpr member) with rfl | later
        · exact le_rfl
        · exact best value later
      · refine Eq.trans ?_ (@shares_sum others greedy config.epsilon some_other)
        rw [← (perm.map _).sum_eq, List.map_cons, List.sum_cons, first,
          List.map_congr_left other, shares, List.map_cons, List.sum_cons, List.map_map]
        rfl
      · intro uniform low pivot
        exact if_pos (first ▸ low)
      · intro value member apart
        have later : value ∈ others :=
          (List.mem_cons.mp (perm.mem_iff.mpr member)).resolve_left apart
        refine ⟨length ▸ other value later, fun uniform high => ?_⟩
        rw [first] at high
        simp only [if_neg (not_le.mpr high), ← length]
        obtain ⟨i, inside, found⟩ := List.getElem_of_mem later
        refine ⟨i, ⟨inside, ?_⟩, fun j ⟨inside', found'⟩ => ?_⟩
        · rw [Nat.mod_eq_of_lt inside, List.getD_eq_getElem _ _ inside, found]
        · rw [Nat.mod_eq_of_lt inside', List.getD_eq_getElem _ _ inside', ← found] at found'
          have names := (List.nodup_cons.mp distinct').2
          have left : j < (others.map Prod.fst).length := by rwa [List.length_map]
          have right : i < (others.map Prod.fst).length := by rwa [List.length_map]
          have same : (others.map Prod.fst)[j] = (others.map Prod.fst)[i] := by
            rw [List.getElem_map, List.getElem_map]
            exact found'
          exact names.getElem_inj_iff.mp same

theorem call_draws_greedy_three :
    ∃ after, ∃ choose : ℚ → Nat → UInt16,
      (∀ draws, epsilonGreedy insertionSorting forkConfig forkMaps 0 [(1, -3), (2, -2), (5, -1)]
        draws = some (after, choose draws.uniform (draws.pivots 0))) ∧
      (([(1, -3), (2, -2), (5, -1)] : Values).map fun value =>
        after.weight (edgeTo 0 value)).sum = 1 := by
  obtain ⟨after, greedy, _, choose, called, _, sum, _⟩ :=
    @call_draws_greedy [(1, -3), (2, -2), (5, -1)] insertionSorting forkConfig forkMaps 0
      (by decide) (by decide) (by decide)
  exact ⟨after, choose, called, sum⟩

end greedy

end RlAqs
