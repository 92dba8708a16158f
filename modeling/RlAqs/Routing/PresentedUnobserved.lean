import RlAqs.Routing.PresentedCore

/-!
The observation of the networks is of the code: the policies of the program write no index of an
edge, and without what is recorded a turn is the turn of the response handler.
-/

namespace RlAqs

variable {N : Type} {graph : Graph}

/-! The policies of the program. -/

theorem foldl_index {α β : Type} (maps : β → EdgeMaps) (turn : β → α → β)
    (kept : ∀ state value, (maps (turn state value)).index = (maps state).index)
    (values : List α) (state : β) :
    (maps (values.foldl turn state)).index = (maps state).index := by
  induction values generalizing state with
  | nil => rfl
  | cons value rest ih => rw [List.foldl_cons, ih, kept]

theorem gradient_index (exp : ℚ → ℚ) (config : PolicyConfig) (currentTime : ℚ) (learner : Learner)
    (maps : EdgeMaps) (source : UInt16) (values : Values) :
    (learner.gradient exp config currentTime maps source values).1.index = maps.index := by
  cases learner with
  | weightedPolicy => rfl
  | fairAction => rfl
  | gradientPolicy =>
      simp only [Learner.gradient, GradientPolicyLearner.gradient]
      refine (foldl_index Prod.fst _ ?_ values _).trans (foldl_index id _ ?_ values maps)
      · exact fun _ _ => rfl
      · exact fun _ _ => rfl

theorem Agent.call_index {agent : Agent N} {currentTime : ℚ} {maps : EdgeMaps} {source : UInt16}
    {values : Values} {draws : PolicyDraws} {answer : EdgeMaps × UInt16}
    (answered : agent.call currentTime maps source values draws = some answer) :
    answer.1.index = maps.index := by
  unfold Agent.call at answered
  cases kind : agent.policy with
  | epsilonGreedy =>
      rw [kind] at answered
      rcases values with _ | ⟨first, _ | ⟨second, rest⟩⟩
      · rw [← Option.some.inj answered]
      · rw [← Option.some.inj answered]
      · simp only [epsilonGreedy] at answered
        split at answered
        · rw [← Option.some.inj answered]
          rfl
        · cases answered
  | learner learner =>
      rw [kind] at answered
      dsimp only at answered
      rw [call_eq_learn] at answered
      rcases values with _ | ⟨first, _ | ⟨second, rest⟩⟩
      · rw [← Option.some.inj answered]
      · rw [← Option.some.inj answered]
      · rw [learn_many (by simp)] at answered
        obtain ⟨weights, _, rfl⟩ := Option.map_eq_some_iff.mp answered
        exact gradient_index _ _ _ learner maps source _

def Agent.edgePolicy (agent : Agent N) (currentTime : ℚ) (draws : PolicyDraws) : EdgePolicy where
  call maps source values := agent.call currentTime maps source values draws
  index_kept _ _ _ _ := Agent.call_index

/-- Indices of 16 bits that tell the edges apart give every edge a network of its own. -/
theorem ownNetworks_of_indices (handler : ResponseHandler) (agent : Agent N) (out : OutEdges graph)
    {maps : EdgeMaps} (small : graph.size ≤ 65536)
    (indexed : Set.InjOn maps.index {edge | edge ∈ graph.edges})
    (few : ∀ edge ∈ graph.edges, maps.index edge < 65536) :
    OwnNetworks handler agent out maps := by
  intro vertex
  refine (List.nodup_map_iff_inj_on (out.distinct vertex)).mpr ?_
  intro left leftIn right rightIn same
  have leftEdge := (out.mem_targets vertex left).mp leftIn
  have rightEdge := (out.mem_targets vertex right).mp rightIn
  have injective := indexed leftEdge rightEdge
  have leftFew := few _ leftEdge
  have rightFew := few _ rightEdge
  have leftSmall := (graph.inside _ leftEdge).2
  have rightSmall := (graph.inside _ rightEdge).2
  simp only at leftSmall rightSmall
  cases handler with
  | hybridFullRl => exact (Prod.mk.inj (injective same)).2
  | rl | fullRl =>
      simp only [ResponseHandler.network, FullRLResponseHandler.index] at same
      split at same
      · omega
      · rw [Nat.mod_eq_of_lt leftFew, Nat.mod_eq_of_lt rightFew] at same
        exact (Prod.mk.inj (injective same)).2

/-! The observation changes nothing. -/

section Unobserved

variable {agent : Agent N} {out : OutEdges graph} (router : Router (Observed N))

theorem Router.deterministic_unobserved (index vertex target : Nat) (reward : ℚ) :
    (router.deterministic index vertex target reward).map unobserved =
      router.unobserved.deterministic index vertex target reward := by
  unfold Router.deterministic
  rw [Option.map_map]
  rfl

theorem RLResponseHandler.updateWith_unobserved
    (policy : EdgeMaps → UInt16 → Values → Option (EdgeMaps × UInt16)) (qAlpha qLambda : ℚ)
    (entry : Entry) (reward : ℚ) :
    (updateWith policy qAlpha qLambda out router entry reward).map Router.unobserved =
      updateWith policy qAlpha qLambda out router.unobserved entry reward := by
  unfold updateWith
  dsimp only
  split
  · rfl
  · exact router.deterministic_unobserved _ _ _ _
  · simp only [Option.bind_eq_bind, Option.map_bind, Function.comp_def, Option.pure_def,
      Option.map_some]
    rfl

theorem FullRLResponseHandler.values_unobserved (vertex : Nat) (state : Nat × Nat → List ℚ)
    (networks : Observed N) (targets : List Nat) :
    (values agent.observed router vertex state networks targets).1.networks =
        (values agent router.unobserved vertex state networks.networks targets).1 ∧
      (values agent.observed router vertex state networks targets).2 =
        (values agent router.unobserved vertex state networks.networks targets).2 := by
  induction targets generalizing networks with
  | nil => exact ⟨rfl, rfl⟩
  | cons target rest ih =>
      obtain ⟨same, later⟩ := ih (agent.observed.networks.present networks
        (index agent.observed router.maps (vertex, target)) (state (vertex, target))).1
      exact ⟨same, congrArg (List.cons _) later⟩

theorem FullRLResponseHandler.updateWith_unobserved
    (policy : EdgeMaps → UInt16 → Values → Option (EdgeMaps × UInt16)) (entry : Entry) (reward : ℚ)
    (state : Nat × Nat → List ℚ) :
    (updateWith agent.observed policy out router entry reward state).map Router.unobserved =
      updateWith agent policy out router.unobserved entry reward state := by
  unfold updateWith
  dsimp only
  split
  · rfl
  · exact router.deterministic_unobserved _ _ _ _
  · obtain ⟨same, listed⟩ := @values_unobserved N agent router entry.destination.toNat state
      router.networks (out.targets entry.destination.toNat)
    have networks : router.unobserved.networks = router.networks.networks := rfl
    rw [networks, ← same, ← listed]
    simp only [Option.bind_eq_bind, Option.map_bind, Function.comp_def, Option.pure_def,
      Option.map_some]
    rfl

theorem HybridFullRLResponseHandler.value_unobserved (networks : Observed N) (edge : Nat × Nat)
    (state : List ℚ) :
    (value agent.observed router networks edge state).map
        (fun found => (found.1.networks, found.2)) =
      value agent router.unobserved networks.networks edge state := by
  by_cases warming : (router.qStats (router.maps.index edge)).n < agent.randomIter
  · have plain : value agent router.unobserved networks.networks edge state =
        (router.qStats (router.maps.index edge)).mean.map fun mean => (networks.networks, mean) :=
      if_pos warming
    have watched : value agent.observed router networks edge state =
        (router.qStats (router.maps.index edge)).mean.map fun mean => (networks, mean) :=
      if_pos warming
    rw [plain, watched, Option.map_map]
    rfl
  · have plain : value agent router.unobserved networks.networks edge state =
        some (agent.networks.present networks.networks (router.maps.index edge) state) :=
      if_neg warming
    have watched : value agent.observed router networks edge state =
        some (agent.observed.networks.present networks (router.maps.index edge) state) :=
      if_neg warming
    rw [plain, watched]
    rfl

theorem HybridFullRLResponseHandler.values_unobserved (vertex : Nat) (state : Nat × Nat → List ℚ)
    (networks : Observed N) (targets : List Nat) :
    (values agent.observed router vertex state networks targets).map
        (fun found => (found.1.networks, found.2)) =
      values agent router.unobserved vertex state networks.networks targets := by
  induction targets generalizing networks with
  | nil => rfl
  | cons target rest ih =>
      have first := @value_unobserved N agent router networks (vertex, target)
        (state (vertex, target))
      simp only [values, Option.bind_eq_bind, Option.map_bind, ← first]
      cases value agent.observed router networks (vertex, target) (state (vertex, target)) with
      | none => rfl
      | some answer =>
        have later := ih answer.1
        simp only [Option.map_some, Option.bind_some, Function.comp, ← later]
        cases values agent.observed router vertex state answer.1 rest <;> rfl

theorem HybridFullRLResponseHandler.newAction_unobserved
    (policy : EdgeMaps → UInt16 → Values → Option (EdgeMaps × UInt16)) (entry : Entry)
    (state : Nat × Nat → List ℚ) :
    newAction agent.observed policy out router entry state =
      newAction agent policy out router.unobserved entry state := by
  have listed := @values_unobserved N agent router entry.destination.toNat state
    router.networks (out.targets entry.destination.toNat)
  have networks : router.unobserved.networks = router.networks.networks := rfl
  simp only [newAction, networks, ← listed]
  cases values agent.observed router entry.destination.toNat state router.networks
    (out.targets entry.destination.toNat) <;> rfl

theorem HybridFullRLResponseHandler.updateWith_unobserved
    (policy : EdgeMaps → UInt16 → Values → Option (EdgeMaps × UInt16)) (entry : Entry) (reward : ℚ)
    (state : Nat × Nat → List ℚ) :
    (updateWith agent.observed policy out router entry reward state).map Router.unobserved =
      updateWith agent policy out router.unobserved entry reward state := by
  unfold updateWith
  dsimp only
  split
  · rfl
  · exact router.deterministic_unobserved _ _ _ _
  · have listed := @values_unobserved N agent router entry.destination.toNat state
      router.networks (out.targets entry.destination.toNat)
    have networks : router.unobserved.networks = router.networks.networks := rfl
    rw [networks, ← listed]
    cases values agent.observed router entry.destination.toNat state router.networks
      (out.targets entry.destination.toNat) with
    | none => rfl
    | some found =>
      simp only [Option.map_some, Option.bind_eq_bind, Option.bind_some, Option.map_bind,
        Function.comp_def, Option.pure_def]
      congr 1
      funext answer
      congr 1
      funext oldE
      congr 1
      funext newE
      have valued := @value_unobserved N agent
        { router with
          maps := answer.1
          qStats := Function.update router.qStats (router.maps.index oldE)
            (if (router.qStats (router.maps.index oldE)).n < agent.randomIter then
              (router.qStats (router.maps.index oldE)).push reward
            else router.qStats (router.maps.index oldE)) }
        (agent.observed.networks.train
          (agent.observed.networks.present found.1 (answer.1.index newE) (state newE)).1
          (router.maps.index oldE) (reward + agent.qLambda *
            (agent.observed.networks.present found.1 (answer.1.index newE) (state newE)).2))
        oldE (state oldE)
      refine Eq.trans ?_ (congrArg (fun valued => Option.bind valued _) valued)
      rw [Option.bind_map]
      rfl

theorem ResponseHandler.updateWith_unobserved (handler : ResponseHandler)
    (policy : EdgeMaps → UInt16 → Values → Option (EdgeMaps × UInt16)) (entry : Entry) (reward : ℚ)
    (state : Nat × Nat → List ℚ) :
    (handler.updateWith agent.observed policy out router entry reward state).map
        Router.unobserved =
      handler.updateWith agent policy out router.unobserved entry reward state := by
  cases handler with
  | rl => exact RLResponseHandler.updateWith_unobserved router policy _ _ entry reward
  | fullRl => exact FullRLResponseHandler.updateWith_unobserved router policy entry reward state
  | hybridFullRl =>
      exact HybridFullRLResponseHandler.updateWith_unobserved router policy entry reward state

theorem NetworkTurn.watch_unobserved (handler : ResponseHandler) (turn : NetworkTurn) :
    (turn.watch handler agent out router).map Router.unobserved =
      turn.step handler agent out router.unobserved := by
  cases turn with
  | acknowledged policy entry state =>
      simp only [watch, step, Option.map_bind, Function.comp_def,
        ResponseHandler.updateWith_unobserved]
      rfl
  | selected policy source =>
      simp only [watch, step]
      by_cases unset : router.nextAction source < 0
      · rw [if_pos (show router.tick.nextAction source < 0 from unset),
          if_pos (show router.unobserved.nextAction source < 0 from unset), Option.map_map]
        rfl
      · rw [if_neg (show ¬ router.tick.nextAction source < 0 from unset),
          if_neg (show ¬ router.unobserved.nextAction source < 0 from unset)]
        rfl

end Unobserved

end RlAqs
