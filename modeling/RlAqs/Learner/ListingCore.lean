import RlAqs.Learner.LearnersChecks
import RlAqs.Learner.ProjectionCore

/-!
What a learner stores, edge by edge. The gradient step and the steps behind the projection work
on each edge alone; only the threshold of the projection depends on how the edges are listed.
-/

namespace RlAqs

/-- The hooks of `FullRLResponseHandler` into the list that the policy is then given. -/
def FullRLResponseHandler.hooks (sorting : Sorting) (regretTotal incentiveDeviate : Bool)
    (values : Values) : Values :=
  let values := if regretTotal then sorting.sort values else values
  if incentiveDeviate then sorting.sort values else values

theorem FullRLResponseHandler.hooks_perm (sorting : Sorting) (regretTotal incentiveDeviate : Bool)
    (values : Values) :
    (FullRLResponseHandler.hooks sorting regretTotal incentiveDeviate values).Perm values := by
  have once := sorting.sort_perm values
  have twice := (sorting.sort_perm (sorting.sort values)).trans once
  cases regretTotal <;> cases incentiveDeviate
  · exact List.Perm.refl values
  · exact once
  · exact once
  · exact twice

def Learner.stepped (exp : ℚ → ℚ) (config : PolicyConfig) (currentTime : ℚ) (maps : EdgeMaps)
    (source : UInt16) (mean : ℚ) (value : UInt16 × ℚ) : Learner → ℚ
  | .weightedPolicy =>
      let orig := maps.weight (edgeTo source value)
      let diff := value.2 - mean
      if diff > 0 then orig + diff * config.eta * (1 - orig) else orig + diff * config.eta * orig
  | .fairAction => maps.weight (edgeTo source value) + config.eta * (value.2 - mean)
  | .gradientPolicy =>
      let edge := edgeTo source value
      let decayed := GradientPolicyLearner.decay exp config currentTime maps edge
      maps.weight edge +
        config.eta * (GradientPolicyLearner.feel config (value.2 - mean) decayed edge).emotion edge

structure Listed (learner : Learner) (maps : EdgeMaps) (source : UInt16) (values : Values) :
    Prop where
  distinct : (values.map Prod.fst).Nodup
  indexed : learner = .gradientPolicy →
    (values.map fun value => maps.index (edgeTo source value)).Nodup

def finish (epsilon : ℚ) (gradient : List ℚ) (theta x : ℚ) : ℚ :=
  let sum := (Simplex.cutOff gradient theta).sum
  let lifted := max (x - theta) 0
  let normal := if gslFcmp sum 1 (1 / 10 ^ 6) ≠ 0 then lifted * (1 / sum) else lifted
  epsilon + (1 - ((gradient.length : ℚ) - 1) * epsilon - epsilon) * normal

def overhang (gradient : List ℚ) (x : ℚ) : ℚ := (Simplex.cutOff gradient x).sum

/-- The renormalisation hides that low elements were taken: what is above the threshold is of one
size, what is below it stays cut off, and the sum is told from one. -/
structure Hidden (gradient : List ℚ) : Prop where
  alike : ∀ x ∈ gradient, ∀ y ∈ gradient, overhang gradient x < 1 → overhang gradient y < 1 → x = y
  below : ∀ x ∈ gradient, 1 ≤ overhang gradient x → gradient.length * x ≤ gradient.sum - 1
  told : ∀ x ∈ gradient, 1 < overhang gradient x →
    2 * (1 / 10 ^ 6) * ((gradient.filter fun y => overhang gradient y < 1).length + 1) <
      overhang gradient x - 1

structure ListingSafe (epsilon : ℚ) (gradient : List ℚ) : Prop where
  short : gradient.length < 65536
  settled : gradient.length * epsilon = 1 ∨ (∀ x ∈ gradient, overhang gradient x ≤ 1) ∨
    Hidden gradient

/-! The gradient steps. -/

namespace GradientPolicyLearner

structure SameEdge (edge : Nat × Nat) (first second : EdgeMaps) : Prop where
  ePos : first.ePos edge = second.ePos edge
  eNeg : first.eNeg edge = second.eNeg edge
  rMin : first.rMin edge = second.rMin edge
  rMax : first.rMax edge = second.rMax edge

theorem SameEdge.feel {config : PolicyConfig} {signal : ℚ} {edge : Nat × Nat}
    {first second : EdgeMaps} (same : SameEdge edge first second) :
    (feel config signal first edge).emotion edge = (feel config signal second edge).emotion edge := by
  simp only [GradientPolicyLearner.feel, same.ePos, same.eNeg, same.rMin, same.rMax,
    Function.update_self]

theorem feel_other (config : PolicyConfig) (signal : ℚ) (maps : EdgeMaps) {edge other : Nat × Nat}
    (different : other ≠ edge) : SameEdge other (feel config signal maps edge) maps := by
  constructor <;> simp [GradientPolicyLearner.feel, Function.update_of_ne different]

theorem decay_other (exp : ℚ → ℚ) (config : PolicyConfig) (currentTime : ℚ) (maps : EdgeMaps)
    {edge other : Nat × Nat} (different : other ≠ edge) :
    SameEdge other (decay exp config currentTime maps edge) maps := by
  constructor <;> simp [decay, Function.update_of_ne different]

theorem SameEdge.trans {edge : Nat × Nat} {first second third : EdgeMaps}
    (left : SameEdge edge first second) (right : SameEdge edge second third) :
    SameEdge edge first third :=
  ⟨left.ePos.trans right.ePos, left.eNeg.trans right.eNeg, left.rMin.trans right.rMin,
    left.rMax.trans right.rMax⟩

theorem decay_after_other (exp : ℚ → ℚ) (config : PolicyConfig) (currentTime : ℚ)
    (maps : EdgeMaps) {edge other : Nat × Nat} (different : other ≠ edge)
    (indexed : maps.index other ≠ maps.index edge) :
    SameEdge other (decay exp config currentTime (decay exp config currentTime maps edge) other)
      (decay exp config currentTime maps other) := by
  constructor <;>
    simp [decay, Function.update_of_ne different, Function.update_of_ne indexed]

theorem decay_foldl_other (exp : ℚ → ℚ) (config : PolicyConfig) (currentTime : ℚ)
    (edges : List (Nat × Nat)) (maps : EdgeMaps) {edge : Nat × Nat} (absent : edge ∉ edges) :
    SameEdge edge (edges.foldl (decay exp config currentTime) maps) maps := by
  induction edges generalizing maps with
  | nil => exact ⟨rfl, rfl, rfl, rfl⟩
  | cons first rest ih =>
      rw [List.mem_cons, not_or] at absent
      exact (ih _ absent.2).trans (decay_other exp config currentTime maps absent.1)

theorem decay_foldl_mem (exp : ℚ → ℚ) (config : PolicyConfig) (currentTime : ℚ)
    (edges : List (Nat × Nat)) (maps : EdgeMaps) (indexed : (edges.map maps.index).Nodup)
    {edge : Nat × Nat} (member : edge ∈ edges) :
    SameEdge edge (edges.foldl (decay exp config currentTime) maps)
      (decay exp config currentTime maps edge) := by
  induction edges generalizing maps with
  | nil => cases member
  | cons first rest ih =>
      rw [List.map_cons, List.nodup_cons] at indexed
      rw [List.foldl_cons]
      rcases List.mem_cons.mp member with same | later
      · subst same
        apply decay_foldl_other
        intro again
        exact indexed.1 (List.mem_map_of_mem again)
      · have apart : maps.index edge ≠ maps.index first := fun same =>
          indexed.1 (same ▸ List.mem_map_of_mem later)
        have different : edge ≠ first := fun same => apart (same ▸ rfl)
        exact (ih (decay exp config currentTime maps first) indexed.2 later).trans
          (decay_after_other exp config currentTime maps different apart)

theorem feel_foldl_eq (config : PolicyConfig) (mean : ℚ) (source : UInt16) (values : Values)
    (weight : Nat × Nat → ℚ) (start : EdgeMaps × List ℚ)
    (distinct : (values.map (edgeTo source)).Nodup) :
    (values.foldl (fun (state : EdgeMaps × List ℚ) value =>
      let edge := edgeTo source value
      let felt := feel config (value.2 - mean) state.1 edge
      (felt, state.2 ++ [weight edge + config.eta * felt.emotion edge])) start).2 =
        start.2 ++ values.map fun value =>
          weight (edgeTo source value) + config.eta *
            (feel config (value.2 - mean) start.1 (edgeTo source value)).emotion
              (edgeTo source value) := by
  induction values generalizing start with
  | nil => simp
  | cons value rest ih =>
      rw [List.map_cons, List.nodup_cons] at distinct
      rw [List.foldl_cons, ih _ distinct.2, List.map_cons, List.append_assoc]
      congr 1
      rw [List.singleton_append]
      congr 1
      apply List.map_congr_left
      intro other member
      have different : edgeTo source other ≠ edgeTo source value := fun same =>
        distinct.1 (same ▸ List.mem_map_of_mem member)
      rw [(feel_other config (value.2 - mean) start.1 different).feel]

end GradientPolicyLearner

theorem edges_nodup (source : UInt16) {values : Values}
    (distinct : (values.map Prod.fst).Nodup) : (values.map (edgeTo source)).Nodup := by
  have same : values.map (edgeTo source) =
      (values.map Prod.fst).map fun target => (source.toNat, target.toNat) := by
    rw [List.map_map]
    rfl
  rw [same]
  exact distinct.map fun first second same => UInt16.toNat.inj (Prod.mk.inj same).2

theorem Listed.gradient_eq {learner : Learner} {maps : EdgeMaps} {source : UInt16}
    {values : Values} (listed : Listed learner maps source values) (exp : ℚ → ℚ)
    (config : PolicyConfig) (currentTime : ℚ) :
    (learner.gradient exp config currentTime maps source values).2 =
      values.map fun value =>
        learner.stepped exp config currentTime maps source (qMean maps source values) value := by
  cases learner with
  | weightedPolicy => rfl
  | fairAction => rfl
  | gradientPolicy =>
      have edges := edges_nodup source listed.distinct
      simp only [Learner.gradient, GradientPolicyLearner.gradient]
      rw [GradientPolicyLearner.feel_foldl_eq _ _ _ _ _ _ edges, List.nil_append]
      apply List.map_congr_left
      intro value member
      have folded : values.foldl (fun maps value =>
          GradientPolicyLearner.decay exp config currentTime maps (edgeTo source value)) maps =
            (values.map (edgeTo source)).foldl
              (GradientPolicyLearner.decay exp config currentTime) maps := by
        rw [List.foldl_map]
      have indexed : ((values.map (edgeTo source)).map maps.index).Nodup := by
        rw [List.map_map]
        exact listed.indexed rfl
      have decayed := GradientPolicyLearner.decay_foldl_mem exp config currentTime
        (values.map (edgeTo source)) maps indexed (List.mem_map_of_mem member)
      rw [folded, decayed.feel]
      rfl

theorem qMean_perm {maps : EdgeMaps} {source : UInt16} {values listed : Values}
    (perm : listed.Perm values) : qMean maps source listed = qMean maps source values :=
  (perm.map fun value => value.2 * maps.weight (edgeTo source value)).sum_eq

theorem Listed.perm {learner : Learner} {maps : EdgeMaps} {source : UInt16}
    {values listed : Values} (offered : Listed learner maps source values)
    (perm : listed.Perm values) : Listed learner maps source listed :=
  ⟨(perm.map Prod.fst).nodup_iff.mpr offered.distinct,
    fun gradient => (perm.map _).nodup_iff.mpr (offered.indexed gradient)⟩

/-! The steps behind the projection. -/

theorem strategy_eq_finish {epsilon theta : ℚ} {gradient : List ℚ} {pivots : Nat → Nat}
    (projection : Simplex.projectionDuchi gradient 1 0 pivots =
      some (Simplex.cutOff gradient theta)) (nonzero : overhang gradient theta ≠ 0) :
    strategy epsilon gradient pivots = some (gradient.map (finish epsilon gradient theta)) := by
  rw [overhang] at nonzero
  rw [strategy, projection, Option.bind_some, normalise]
  unfold finish
  dsimp only
  generalize (Simplex.cutOff gradient theta).sum = sum at nonzero ⊢
  generalize gslFcmp sum 1 (1 / 10 ^ 6) = order
  by_cases told : order = 0
  · simp [told, squeeze, Vector.scale, Simplex.cutOff]
  · simp [told, divide, nonzero, squeeze, Vector.mult, Vector.scale, Simplex.cutOff]

section Perm

variable {first second : List ℚ} (reordered : first.Perm second)
include reordered

theorem overhang_perm : overhang first = overhang second := by
  funext x
  exact (reordered.map _).sum_eq

theorem finish_perm (epsilon : ℚ) : finish epsilon first = finish epsilon second := by
  funext theta x
  have sum : (Simplex.cutOff first theta).sum = (Simplex.cutOff second theta).sum :=
    congrFun (overhang_perm reordered) theta
  simp only [finish, sum, reordered.length_eq]

theorem Hidden.perm (hidden : Hidden second) : Hidden first := by
  have members : ∀ x ∈ first, x ∈ second := fun x member => reordered.mem_iff.mp member
  have counted := (reordered.filter fun y => decide (overhang second y < 1)).length_eq
  refine ⟨?_, ?_, ?_⟩
  · rw [overhang_perm reordered]
    exact fun x inside y inside' => hidden.alike x (members x inside) y (members y inside')
  · rw [overhang_perm reordered, reordered.length_eq, reordered.sum_eq]
    exact fun x inside => hidden.below x (members x inside)
  · rw [overhang_perm reordered, counted]
    exact fun x inside => hidden.told x (members x inside)

theorem Simplex.HasThreshold.perm {z theta : ℚ} (threshold : Simplex.HasThreshold second z theta) :
    Simplex.HasThreshold first z theta := by
  refine ⟨threshold.positive, ?_⟩
  have sum := threshold.sum
  rw [← Simplex.sum_cutOff] at sum ⊢
  exact (congrFun (overhang_perm reordered) theta).trans sum

end Perm

end RlAqs
