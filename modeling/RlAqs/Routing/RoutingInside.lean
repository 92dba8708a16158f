import RlAqs.Routing.RoutingCore
import RlAqs.Learner.StrategyKept

/-!
A policy answers with one of the actions it is given, a selection with an out-neighbour, and a
response handler stores an out-neighbour wherever there is one.
-/

namespace RlAqs

/-! The policies. -/

theorem length_strategy {epsilon : ℚ} {gradient weights : List ℚ} {pivots : Nat → Nat}
    (computed : strategy epsilon gradient pivots = some weights) :
    weights.length = gradient.length := by
  simp only [strategy, Option.map_eq_some_iff, Option.bind_eq_some_iff] at computed
  obtain ⟨normal, ⟨projected, projection, normalised⟩, rfl⟩ := computed
  rw [length_squeeze]
  simp only [Simplex.projectionDuchi, Option.bind_eq_some_iff, Option.map_eq_some_iff]
    at projection
  obtain ⟨_, _, _, _, theta, _, rfl⟩ := projection
  unfold normalise at normalised
  split at normalised
  · obtain ⟨factor, _, rfl⟩ := Option.map_eq_some_iff.mp normalised
    simp [Vector.mult]
  · simp [← Option.some.inj normalised]

theorem sort_ne_nil (sorting : Sorting) {values : Values} (some_value : values ≠ []) :
    sorting.sort values ≠ [] := by
  intro empty
  have perm := sorting.sort_perm values
  rw [empty] at perm
  exact some_value (List.nil_perm.mp perm)

theorem mem_sort (sorting : Sorting) {values : Values} {action : UInt16} :
    action ∈ (sorting.sort values).map Prod.fst ↔ action ∈ values.map Prod.fst :=
  ((sorting.sort_perm values).map Prod.fst).mem_iff

section Policies

variable {sorting : Sorting} {config : PolicyConfig} {maps after : EdgeMaps} {source action : UInt16}
  {values : Values} {draws : PolicyDraws}

theorem learn_mem {gradient : EdgeMaps → UInt16 → Values → EdgeMaps × List ℚ}
    (length : (gradient maps source values).2.length = values.length)
    (answered : learn gradient sorting config maps source values draws = some (after, action))
    (some_value : values ≠ []) : action ∈ values.map Prod.fst := by
  match values with
  | [] => exact absurd rfl some_value
  | [only] =>
      obtain ⟨_, rfl⟩ := Prod.mk.inj (Option.some.inj answered)
      simp
  | first :: second :: rest =>
      rw [learn_many (by simp)] at answered
      obtain ⟨weights, computed, same⟩ := Option.map_eq_some_iff.mp answered
      obtain ⟨_, rfl⟩ := Prod.mk.inj same
      have firsts := zip_weights_map ((length_strategy computed).trans length)
      have some_action :
          ((first :: second :: rest).map Prod.fst).zip weights ≠ [] := by
        intro empty
        rw [empty] at firsts
        cases firsts
      have chosen := select_mem draws.uniform (sort_ne_nil sorting some_action)
      rwa [mem_sort, firsts] at chosen

theorem epsilonGreedy_mem
    (answered : epsilonGreedy sorting config maps source values draws = some (after, action))
    (some_value : values ≠ []) : action ∈ values.map Prod.fst := by
  match values with
  | [] => exact absurd rfl some_value
  | [only] =>
      obtain ⟨_, rfl⟩ := Prod.mk.inj (Option.some.inj answered)
      simp
  | first :: second :: rest =>
      have length := (sorting.sort_perm (first :: second :: rest)).length_eq
      have some_sorted := sort_ne_nil sorting some_value
      rw [← mem_sort sorting]
      simp only [epsilonGreedy] at answered
      generalize sorting.sort (first :: second :: rest) = sorted at answered length some_sorted
      split at answered
      · rename_i short
        obtain ⟨_, rfl⟩ := Prod.mk.inj (Option.some.inj answered)
        simp only [List.length_cons] at length
        have inside : draws.pivots 0 % (sorted.length - 1) + 1 < sorted.length := by
          have bound := Nat.mod_lt (draws.pivots 0) (by omega : 0 < sorted.length - 1)
          omega
        split
        · apply List.mem_map_of_mem
          rw [List.headD_eq_head?_getD, List.head?_eq_some_head some_sorted]
          exact List.head_mem some_sorted
        · apply List.mem_map_of_mem
          rw [UInt16.toNat_ofNat_of_lt' (inside.trans short), List.getD_eq_getElem _ _ inside]
          exact List.getElem_mem inside
      · cases answered

end Policies

section Agents

variable {N : Type} {graph : Graph} {agent : Agent N} {out : OutEdges graph}
  {router next : Router N} {entry : Entry} {reward : ℚ} {draws : RoutingDraws}

theorem Agent.call_mem {currentTime : ℚ} {maps after : EdgeMaps} {source action : UInt16}
    {values : Values} {draws : PolicyDraws}
    (answered : agent.call currentTime maps source values draws = some (after, action))
    (some_value : values ≠ []) : action ∈ values.map Prod.fst := by
  unfold Agent.call at answered
  cases kind : agent.policy with
  | epsilonGreedy =>
      rw [kind] at answered
      exact epsilonGreedy_mem answered some_value
  | learner learner =>
      rw [kind] at answered
      dsimp only at answered
      rw [call_eq_learn] at answered
      exact learn_mem (gradient_length _ _ _ _ _ _ _) answered some_value

/-! The values that a policy is given stand for the out-edges. -/

theorem target_lt (small : graph.size < 65536) {vertex target : Nat}
    (member : target ∈ out.targets vertex) : target < 65536 :=
  ((graph.inside _ ((out.mem_targets vertex target).mp member)).2).trans small

theorem target_of_mem (small : graph.size < 65536) {vertex : Nat} {action : UInt16}
    {values : Values} (listed : (values.map Prod.fst).Perm ((out.targets vertex).map UInt16.ofNat))
    (member : action ∈ values.map Prod.fst) : action.toNat ∈ out.targets vertex := by
  obtain ⟨target, inside, rfl⟩ := List.mem_map.mp (listed.mem_iff.mp member)
  rwa [UInt16.toNat_ofNat_of_lt' (target_lt small inside)]

theorem qValues_listed (router : Router N) (vertex : Nat) :
    (qValues out router vertex).map Prod.fst = (out.targets vertex).map UInt16.ofNat := by
  simp [qValues]

theorem FullRLResponseHandler.values_listed (vertex : Nat) (state : Nat × Nat → List ℚ)
    (networks : N) (targets : List Nat) :
    (values agent router vertex state networks targets).2.map Prod.fst =
      targets.map UInt16.ofNat := by
  induction targets generalizing networks with
  | nil => rfl
  | cons target rest ih =>
      simp only [values, List.map_cons]
      rw [ih]

theorem HybridFullRLResponseHandler.values_listed {vertex : Nat} {state : Nat × Nat → List ℚ}
    {networks : N} {targets : List Nat} {found : N × Values}
    (computed : values agent router vertex state networks targets = some found) :
    found.2.map Prod.fst = targets.map UInt16.ofNat := by
  induction targets generalizing networks found with
  | nil =>
      rw [← Option.some.inj computed]
      rfl
  | cons target rest ih =>
      simp only [values, Option.bind_eq_bind, Option.bind_eq_some_iff] at computed
      obtain ⟨first, _, later, tail, same⟩ := computed
      rw [← Option.some.inj same, List.map_cons, List.map_cons, ih tail]

/-! The stored actions. -/

def Inside (out : OutEdges graph) (router : Router N) : Prop :=
  ∀ vertex, out.targets vertex ≠ [] →
    router.nextAction vertex = -1 ∨ ∃ target ∈ out.targets vertex, router.nextAction vertex = target

theorem Inside.kept (inside : Inside out router) (same : next.nextAction = router.nextAction) :
    Inside out next := by
  unfold Inside
  rw [same]
  exact inside

theorem Inside.set (inside : Inside out router) {vertex : Nat} {newAction : UInt16}
    (same : next.nextAction = router.nextAction)
    (chosen : out.targets vertex ≠ [] → newAction.toNat ∈ out.targets vertex) :
    Inside out (next.setNextAction vertex newAction) := by
  intro other some_target
  by_cases here : other = vertex
  · subst here
    refine .inr ⟨newAction.toNat, chosen some_target, ?_⟩
    simp [Router.setNextAction]
  · simp only [Router.setNextAction, Function.update_of_ne here, same]
    exact inside other some_target

theorem Inside.deterministic (inside : Inside out router) (small : graph.size < 65536)
    {index vertex target : Nat} (only : out.targets vertex = [target])
    (done : router.deterministic index vertex target reward = some next) : Inside out next := by
  obtain ⟨mean, _, rfl⟩ := Option.map_eq_some_iff.mp done
  apply inside.set rfl
  intro _
  have member : target ∈ out.targets vertex := by simp [only]
  rwa [UInt16.toNat_ofNat_of_lt' (target_lt small member)]

theorem Inside.learnt (inside : Inside out router) (small : graph.size < 65536) {vertex : Nat}
    {currentTime : ℚ} {maps after : EdgeMaps} {newAction : UInt16} {values : Values}
    {draws : PolicyDraws}
    (listed : (values.map Prod.fst).Perm ((out.targets vertex).map UInt16.ofNat))
    (answered : agent.call currentTime maps (UInt16.ofNat vertex) values draws =
      some (after, newAction))
    (same : next.nextAction = router.nextAction) :
    Inside out (next.setNextAction vertex newAction) := by
  apply inside.set same
  intro some_target
  apply target_of_mem small listed
  apply Agent.call_mem answered
  rintro rfl
  simp only [List.map_nil, List.nil_perm, List.map_eq_nil_iff] at listed
  exact some_target listed

theorem Inside.rl (inside : Inside out router) (small : graph.size < 65536)
    (done : RLResponseHandler.update agent out router entry reward draws = some next) :
    Inside out next := by
  unfold RLResponseHandler.update RLResponseHandler.updateWith at done
  dsimp only at done
  split at done
  · rename_i none
    rw [← Option.some.inj done]
    exact inside.set rfl fun some_target => absurd none some_target
  · rename_i only
    exact inside.deterministic small only done
  · simp only [Option.bind_eq_bind, Option.bind_eq_some_iff] at done
    obtain ⟨answer, answered, oldE, _, newE, _, same⟩ := done
    rw [← Option.some.inj same]
    exact inside.learnt small (.of_eq (qValues_listed router _)) answered rfl

theorem Inside.fullRl (inside : Inside out router) (small : graph.size < 65536)
    (done : FullRLResponseHandler.update agent out router entry reward draws = some next) :
    Inside out next := by
  unfold FullRLResponseHandler.update FullRLResponseHandler.updateWith at done
  dsimp only at done
  split at done
  · rename_i none
    rw [← Option.some.inj done]
    exact inside.set rfl fun some_target => absurd none some_target
  · rename_i only
    exact inside.deterministic small only done
  · simp only [Option.bind_eq_bind, Option.bind_eq_some_iff] at done
    obtain ⟨answer, answered, oldE, _, newE, _, same⟩ := done
    rw [← Option.some.inj same]
    refine inside.learnt small ?_ answered rfl
    have listed : (FullRLResponseHandler.values agent router entry.destination.toNat draws.state
        router.networks (out.targets entry.destination.toNat)).2.map Prod.fst =
          (out.targets entry.destination.toNat).map UInt16.ofNat :=
      FullRLResponseHandler.values_listed _ _ _ _
    rw [← listed]
    exact (FullRLResponseHandler.hooks_perm _ _ _ _).map Prod.fst

theorem Inside.hybridFullRl (inside : Inside out router) (small : graph.size < 65536)
    (done : HybridFullRLResponseHandler.update agent out router entry reward draws = some next) :
    Inside out next := by
  unfold HybridFullRLResponseHandler.update HybridFullRLResponseHandler.updateWith at done
  dsimp only at done
  split at done
  · rename_i none
    rw [← Option.some.inj done]
    exact inside.set rfl fun some_target => absurd none some_target
  · rename_i only
    exact inside.deterministic small only done
  · simp only [Option.bind_eq_bind, Option.bind_eq_some_iff] at done
    obtain ⟨found, computed, answer, answered, oldE, _, newE, _, newQ, _, same⟩ := done
    rw [← Option.some.inj same]
    exact inside.learnt small
      (.of_eq (HybridFullRLResponseHandler.values_listed computed)) answered rfl

theorem Inside.response (inside : Inside out router) (small : graph.size < 65536)
    (handler : ResponseHandler)
    (done : handler.update agent out router entry reward draws = some next) : Inside out next := by
  cases handler with
  | rl => exact inside.rl small done
  | fullRl => exact inside.fullRl small done
  | hybridFullRl => exact inside.hybridFullRl small done

/-! The selections. -/

theorem OnPolicySelection.select_inside (inside : Inside out router) (small : graph.size < 65536)
    {source : Nat} {currentTime : ℚ} {draws : PolicyDraws} {destination : Int}
    (some_target : out.targets source ≠ [])
    (selected : select agent out router source currentTime draws = some (next, destination)) :
    Inside out next ∧ ∃ target ∈ out.targets source, destination = target := by
  unfold select at selected
  dsimp only at selected
  split at selected
  · obtain ⟨answer, answered, same⟩ := Option.map_eq_some_iff.mp selected
    obtain ⟨rfl, rfl⟩ := Prod.mk.inj same
    refine ⟨inside.kept rfl, answer.2.toNat, ?_, rfl⟩
    apply target_of_mem small (.of_eq (qValues_listed router source))
    apply Agent.call_mem answered
    simpa [qValues] using some_target
  · rename_i stored
    obtain ⟨rfl, rfl⟩ := Prod.mk.inj (Option.some.inj selected)
    refine ⟨inside, (inside source some_target).resolve_left ?_⟩
    omega

namespace RandomSelection

theorem pick_mem (uniform : ℚ) (edges : List Nat) (weights : List ℚ) (order : List Nat)
    (before : ℚ) :
    pick uniform edges weights order before = -1 ∨
      ∃ position ∈ order, pick uniform edges weights order before = edges.getD position 0 := by
  induction order generalizing before with
  | nil => exact .inl rfl
  | cons position rest ih =>
      simp only [pick]
      split
      · exact .inr ⟨position, List.mem_cons_self, rfl⟩
      · rcases ih (before + weights.getD position 0) with missed | ⟨later, member, found⟩
        · exact .inl missed
        · exact .inr ⟨later, List.mem_cons_of_mem _ member, found⟩

theorem select_mem (sorting : WeightSorting) (router : Router N) (source : Nat) (uniform : ℚ)
    (some_target : out.targets source ≠ []) :
    ∃ target ∈ out.targets source, select out sorting router source uniform = target := by
  unfold select
  split
  · rename_i none
    exact absurd none some_target
  · rename_i target only
    exact ⟨target, by simp [only], rfl⟩
  · dsimp only
    have inside : ∀ position < (out.targets source).length,
        (out.targets source).getD position 0 ∈ out.targets source := by
      intro position bound
      rw [List.getD_eq_getElem _ _ bound]
      exact List.getElem_mem bound
    have positive := List.length_pos_iff.mpr some_target
    split
    · exact ⟨_, inside _ (by omega), rfl⟩
    · rename_i found
      generalize weighted : ((out.targets source).map fun target =>
        router.maps.weight (source, target)) = weights at found ⊢
      rcases pick_mem uniform (out.targets source) weights (sorting.sort weights) 0 with
        missed | ⟨position, member, picked⟩
      · exact absurd missed found
      · refine ⟨_, inside position ?_, picked⟩
        have bound := List.mem_range.mp ((sorting.sort_perm weights).mem_iff.mp member)
        rwa [← weighted, List.length_map] at bound

end RandomSelection

end Agents

end RlAqs
