import RlAqs.Learner.StrategyDrawn
import RlAqs.Routing.BoltzmannCore
import RlAqs.Routing.RoutedRuns
import Mathlib.Algebra.BigOperators.Ring.List

/-!
The two other ways to draw an action: the Boltzmann policy, for which better actions are not less
probable, and the random selection by the weights of the edges.
-/

namespace RlAqs

namespace BoltzmannPolicy

variable {policy : BoltzmannPolicy} {values : Values}

theorem mapM_map {α β : Type} {step : α → Option β} {result : α → β} {items : List α}
    (each : ∀ item ∈ items, step item = some (result item)) :
    items.mapM step = some (items.map result) := by
  induction items with
  | nil => rfl
  | cons item rest ih =>
      rw [List.mapM_cons, each item List.mem_cons_self,
        ih fun other member => each other (List.mem_cons_of_mem _ member)]
      rfl

def factor (policy : BoltzmannPolicy) (value : UInt16 × ℚ) : ℚ :=
  policy.exp (-policy.log10 (-value.2) / policy.tau)

/-- What is asked of the two functions for some values: the one that is never zero in exact
arithmetic has not gone down to zero at an exponent that occurs. -/
structure Library (policy : BoltzmannPolicy) (values : Values) : Prop where
  exp_pos : ∀ value ∈ values, value.2 < 0 → 0 < policy.factor value
  exp_mono : Monotone policy.exp
  log10_mono : ∀ x y, 0 < x → x ≤ y → policy.log10 x ≤ policy.log10 y

def probability (policy : BoltzmannPolicy) (values : Values) (value : UInt16 × ℚ) : ℚ :=
  if values.any fun value => value.2 = 0 then 1 / values.length
  else policy.factor value / (values.map policy.factor).sum

theorem neg_of_nonzero (cost : ∀ value ∈ values, value.2 ≤ 0)
    (nonzero : ¬(values.any fun value => value.2 = 0)) : ∀ value ∈ values, value.2 < 0 := by
  intro value member
  refine lt_of_le_of_ne (cost value member) fun zero => nonzero ?_
  exact List.any_eq_true.mpr ⟨value, member, by simpa using zero⟩

theorem energy_sum_pos (library : Library policy values) (some_value : values ≠ [])
    (negative : ∀ value ∈ values, value.2 < 0) : 0 < (values.map policy.factor).sum := by
  refine List.sum_pos _ (fun x member => ?_) (by simpa using some_value)
  obtain ⟨value, inside, rfl⟩ := List.mem_map.mp member
  exact library.exp_pos value inside (negative value inside)

theorem probabilities_eq (library : Library policy values) (warm : 0 < policy.tau)
    (some_value : values ≠ []) (cost : ∀ value ∈ values, value.2 ≤ 0) :
    policy.probabilities values =
      some (values.map fun value => (value.1, policy.probability values value)) := by
  unfold probabilities probability
  split
  · rfl
  · rename_i nonzero
    have negative := neg_of_nonzero cost nonzero
    have energies : values.mapM policy.energy =
        some (values.map policy.factor) := by
      refine mapM_map fun value member => ?_
      rw [energy, if_pos (neg_pos.mpr (negative value member)), divide, if_neg warm.ne']
      rfl
    have positive := energy_sum_pos library some_value negative
    rw [energies]
    simp only [Option.bind_eq_bind, Option.bind_some]
    have shares : (values.map policy.factor).mapM
        (fun x => divide x (values.map policy.factor).sum) =
          some ((values.map policy.factor).map (· / (values.map policy.factor).sum)) :=
      mapM_map fun x _ => if_neg positive.ne'
    rw [shares, Option.bind_some, List.map_map, List.zip_map']
    rfl

theorem probability_pos (library : Library policy values) (cost : ∀ value ∈ values, value.2 ≤ 0)
    {value : UInt16 × ℚ} (member : value ∈ values) : 0 < policy.probability values value := by
  have some_value : values ≠ [] := List.ne_nil_of_mem member
  unfold probability
  split
  · have length : (0 : ℚ) < values.length := by exact_mod_cast List.length_pos_iff.mpr some_value
    exact one_div_pos.mpr length
  · rename_i nonzero
    have negative := neg_of_nonzero cost nonzero
    exact div_pos (library.exp_pos value member (negative value member))
      (energy_sum_pos library some_value negative)

theorem probability_sum (library : Library policy values) (some_value : values ≠ [])
    (cost : ∀ value ∈ values, value.2 ≤ 0) :
    (values.map (policy.probability values)).sum = 1 := by
  unfold probability
  split
  · have length : (values.length : ℚ) ≠ 0 := by
      exact_mod_cast (List.length_pos_iff.mpr some_value).ne'
    rw [List.map_const', List.sum_replicate, nsmul_eq_mul, mul_one_div_cancel length]
  · rename_i nonzero
    have positive := energy_sum_pos library some_value (neg_of_nonzero cost nonzero)
    simp only [div_eq_mul_inv]
    rw [List.sum_map_mul_right, mul_inv_cancel₀ positive.ne']

theorem probability_mono (library : Library policy values) (warm : 0 < policy.tau)
    (cost : ∀ value ∈ values, value.2 ≤ 0) {first second : UInt16 × ℚ} (member : second ∈ values)
    (order : first.2 ≤ second.2) :
    policy.probability values first ≤ policy.probability values second := by
  unfold probability
  split
  · exact le_rfl
  · rename_i nonzero
    have negative := neg_of_nonzero cost nonzero
    have logs := library.log10_mono (-second.2) (-first.2) (neg_pos.mpr (negative second member))
      (neg_le_neg order)
    have energies := library.exp_mono
      (div_le_div_of_nonneg_right (neg_le_neg logs) warm.le)
    exact div_le_div_of_nonneg_right energies
      (energy_sum_pos library (List.ne_nil_of_mem member) negative).le

theorem select_eq_pick (uniform : ℚ) {probabilities : Values}
    (named : ∀ value ∈ probabilities, value.1 ≠ 65535) :
    select uniform probabilities =
      Roulette.pick uniform probabilities (probabilities.getLastD (0, 0)).1 := by
  rw [select, Roulette.pick, accumulate_eq_spin]
  cases found : Roulette.spin uniform probabilities 0 with
  | none => rfl
  | some action =>
      obtain ⟨value, member, rfl⟩ := List.mem_map.mp (Roulette.spin_mem found)
      exact if_neg (named value member)

theorem call_many (many : 2 ≤ values.length) (uniform : ℚ) :
    policy.call values uniform = (policy.probabilities values).map fun probabilities =>
      select uniform (policy.sorting.sort probabilities) := by
  match values with
  | [] => simp at many
  | [_] => simp at many
  | _ :: _ :: _ => rfl

/-- Every action is chosen on an interval of draws as long as its probability is; the
probabilities sum to one, and better actions are not less probable. -/
theorem call_draws_probability (library : Library policy values) (warm : 0 < policy.tau)
    (many : 2 ≤ values.length) (distinct : (values.map Prod.fst).Nodup)
    (named : ∀ value ∈ values, value.1 ≠ 65535) (cost : ∀ value ∈ values, value.2 ≤ 0) :
    ∃ choose : ℚ → UInt16, (∀ uniform, policy.call values uniform = some (choose uniform)) ∧
      (values.map (policy.probability values)).sum = 1 ∧
      ∀ value ∈ values, 0 < policy.probability values value ∧
        (∀ better ∈ values, value.2 ≤ better.2 →
          policy.probability values value ≤ policy.probability values better) ∧
        ∃ lower, 0 ≤ lower ∧ lower + policy.probability values value ≤ 1 ∧
          ∀ uniform, 0 ≤ uniform → uniform < 1 →
            (choose uniform = value.1 ↔
              lower ≤ uniform ∧ uniform < lower + policy.probability values value) := by
  have some_value : values ≠ [] := List.length_pos_iff.mp (by omega)
  have computed := probabilities_eq library warm some_value cost
  have sum := probability_sum library some_value cost
  generalize probable : values.map (fun value => (value.1, policy.probability values value)) =
    probabilities at computed
  have perm := policy.sorting.sort_perm probabilities
  have inside : ∀ item ∈ probabilities, ∃ value ∈ values,
      (value.1, policy.probability values value) = item := by
    intro item member
    rw [← probable] at member
    exact List.mem_map.mp member
  have total : Roulette.total (policy.sorting.sort probabilities) = 1 := by
    rw [Roulette.total_perm perm, ← sum, Roulette.total, ← probable, List.map_map]
    rfl
  have firsts : probabilities.map Prod.fst = values.map Prod.fst := by
    rw [← probable, List.map_map]
    rfl
  have named' : ∀ item ∈ policy.sorting.sort probabilities, item.1 ≠ 65535 := by
    intro item member
    obtain ⟨value, listed, rfl⟩ := inside item (perm.mem_iff.mp member)
    exact named value listed
  have nonneg : ∀ item ∈ policy.sorting.sort probabilities, 0 ≤ item.2 := by
    intro item member
    obtain ⟨value, listed, rfl⟩ := inside item (perm.mem_iff.mp member)
    exact (probability_pos library cost listed).le
  refine ⟨fun uniform => select uniform (policy.sorting.sort probabilities), fun uniform => ?_,
    sum, fun value listed => ⟨probability_pos library cost listed, fun better among order => ?_, ?_⟩⟩
  · rw [call_many many, computed]
    rfl
  · exact probability_mono library warm cost among order
  · have member : (value.1, policy.probability values value) ∈
        policy.sorting.sort probabilities := by
      rw [perm.mem_iff, ← probable]
      exact List.mem_map.mpr ⟨value, listed, rfl⟩
    obtain ⟨lower, above, within, interval⟩ := Roulette.pick_interval
      ((policy.sorting.sort probabilities).getLastD (0, 0)).1 nonneg
      ((perm.map Prod.fst).nodup_iff.mpr (firsts ▸ distinct)) member
    rw [total] at within interval
    refine ⟨lower, above, within, fun uniform order below => ?_⟩
    simp only [select_eq_pick uniform named']
    exact interval uniform order below

/-- At an input where both functions are what the C library computes. -/
def evenPolicy : BoltzmannPolicy where
  tau := 1
  exp x := if 0 ≤ x then 1 else 1 / 3
  log10 x := x - 1
  sorting := insertionSorting

theorem call_draws_probability_even :
    ∃ choose : ℚ → UInt16,
      (∀ uniform, evenPolicy.call [(1, -1), (2, -1)] uniform = some (choose uniform)) ∧
      ∀ value ∈ ([(1, -1), (2, -1)] : Values),
        0 < evenPolicy.probability [(1, -1), (2, -1)] value := by
  have library : Library evenPolicy [(1, -1), (2, -1)] := by
    refine ⟨fun value _ _ => ?_, fun x y order => ?_, fun x y _ order => ?_⟩
    · simp only [factor, evenPolicy]
      split <;> norm_num
    · simp only [evenPolicy]
      split
      · rename_i natural
        rw [if_pos (natural.trans order)]
      · split <;> norm_num
    · simp only [evenPolicy]
      linarith
  have warm : 0 < evenPolicy.tau := by norm_num [evenPolicy]
  obtain ⟨choose, called, _, each⟩ := @call_draws_probability evenPolicy [(1, -1), (2, -1)]
    library warm (by decide) (by decide) (by decide) (by decide)
  exact ⟨choose, called, fun value listed => (each value listed).1⟩

end BoltzmannPolicy

/-! The selection that learns nothing. -/

namespace RandomSelection

variable {N : Type} {graph : Graph} {out : OutEdges graph}

def wheel (edges : List Nat) (weights : List ℚ) (positions : List Nat) : List (Nat × ℚ) :=
  positions.map fun position => (edges.getD position 0, weights.getD position 0)

theorem pick_eq_spin (uniform : ℚ) (edges : List Nat) (weights : List ℚ) (positions : List Nat)
    (before : ℚ) :
    pick uniform edges weights positions before =
      ((Roulette.spin uniform (wheel edges weights positions) before).map Int.ofNat).getD (-1) := by
  induction positions generalizing before with
  | nil => rfl
  | cons position rest ih =>
      simp only [pick, wheel, List.map_cons, Roulette.spin]
      split
      · rfl
      · exact ih _

theorem wheel_perm (sorting : WeightSorting) (edges : List Nat) (weight : Nat → ℚ) :
    (wheel edges (edges.map weight) (sorting.sort (edges.map weight))).Perm
      (edges.map fun target => (target, weight target)) := by
  have perm := (sorting.sort_perm (edges.map weight)).map fun position =>
    (edges.getD position 0, (edges.map weight).getD position 0)
  refine perm.trans (List.Perm.of_eq ?_)
  apply List.ext_getElem
  · simp
  · intro index bound bound'
    have inside : index < edges.length := by simpa using bound
    simp [inside]

theorem select_many (sorting : WeightSorting) (router : Router N) {source : Nat}
    (many : 2 ≤ (out.targets source).length) (uniform : ℚ) :
    select out sorting router source uniform =
      let weights := (out.targets source).map fun target => router.maps.weight (source, target)
      Int.ofNat (Roulette.pick uniform
        (wheel (out.targets source) weights (sorting.sort weights))
        ((out.targets source).getD ((out.targets source).length - 1) 0)) := by
  unfold select
  split
  · rename_i none
    simp [none] at many
  · rename_i only
    simp [only] at many
  · simp only [pick_eq_spin, Roulette.pick]
    cases Roulette.spin uniform _ 0 with
    | none => rfl
    | some target => exact if_neg (by simp)

/-- With weights that are no less than zero every out-neighbour is chosen on an interval of draws
as long as its weight is, and beyond the total weight the last one listed is. -/
theorem select_draws_weight (sorting : WeightSorting) (router : Router N) {source : Nat}
    (many : 2 ≤ (out.targets source).length)
    (nonneg : ∀ target ∈ out.targets source, 0 ≤ router.maps.weight (source, target)) :
    let total := ((out.targets source).map fun target => router.maps.weight (source, target)).sum
    (∀ target ∈ out.targets source,
      let weight := router.maps.weight (source, target)
      ∃ lower, 0 ≤ lower ∧ lower + weight ≤ total ∧
        ∀ uniform, 0 ≤ uniform → uniform < total →
          (select out sorting router source uniform = target ↔
            lower ≤ uniform ∧ uniform < lower + weight)) ∧
      ∀ uniform, 0 ≤ uniform → total ≤ uniform →
        select out sorting router source uniform =
          (out.targets source).getD ((out.targets source).length - 1) 0 := by
  have perm := wheel_perm sorting (out.targets source) fun target =>
    router.maps.weight (source, target)
  have nonneg' : ∀ item ∈ wheel (out.targets source)
      ((out.targets source).map fun target => router.maps.weight (source, target))
      (sorting.sort ((out.targets source).map fun target => router.maps.weight (source, target))),
      0 ≤ item.2 := by
    intro item member
    obtain ⟨target, listed, rfl⟩ := List.mem_map.mp (perm.mem_iff.mp member)
    exact nonneg target listed
  have same := Roulette.total_perm perm
  have weights : Roulette.total ((out.targets source).map fun target =>
      (target, router.maps.weight (source, target))) =
        ((out.targets source).map fun target => router.maps.weight (source, target)).sum := by
    rw [Roulette.total, List.map_map]
    rfl
  rw [weights] at same
  have distinct : ((wheel (out.targets source)
      ((out.targets source).map fun target => router.maps.weight (source, target))
      (sorting.sort ((out.targets source).map fun target =>
        router.maps.weight (source, target)))).map Prod.fst).Nodup := by
    rw [(perm.map Prod.fst).nodup_iff, List.map_map]
    exact (List.map_id (out.targets source)).symm ▸ out.distinct source
  intro total
  refine ⟨fun target listed => ?_, fun uniform order beyond => ?_⟩
  · have member := perm.mem_iff.mpr (List.mem_map.mpr ⟨target, listed, rfl⟩)
    obtain ⟨lower, above, within, interval⟩ := Roulette.pick_interval
      ((out.targets source).getD ((out.targets source).length - 1) 0) nonneg' distinct member
    rw [same] at within interval
    refine ⟨lower, above, within, fun uniform order below => ?_⟩
    rw [select_many sorting router many, ← interval uniform order below]
    exact Int.ofNat_inj
  · rw [select_many sorting router many]
    exact congrArg Int.ofNat (Roulette.pick_beyond _ nonneg' order (same.trans_le beyond))

theorem select_draws_weight_fork :
    ∃ lower, 0 ≤ lower ∧ ∀ uniform, 0 ≤ uniform → uniform < 1 →
      (select forkOut insertionWeightSorting forkRouter 0 uniform = 2 ↔
        lower ≤ uniform ∧ uniform < lower + 1 / 2) := by
  have weight (target : Nat) : forkRouter.maps.weight (0, target) = 1 / 2 := rfl
  have nonneg : ∀ target ∈ forkOut.targets 0, 0 ≤ forkRouter.maps.weight (0, target) := by
    intro target _
    rw [weight]
    norm_num
  have total : ((forkOut.targets 0).map fun target => forkRouter.maps.weight (0, target)).sum =
      1 := by
    simp only [weight]
    norm_num [forkOut]
  obtain ⟨lower, above, _, interval⟩ :=
    (select_draws_weight insertionWeightSorting forkRouter (by decide) nonneg).1 2 (by decide)
  rw [total] at interval
  exact ⟨lower, above, interval⟩

end RandomSelection

end RlAqs
