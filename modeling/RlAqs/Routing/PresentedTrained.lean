import RlAqs.Routing.PresentedUnobserved

/-!
When a network is trained on the state of the edge just used. The full handlers predict the values
of all edges first, so the network has seen that state; the hybrid handler predicts no value of an
edge that warms up, and trains its network all the same.
-/

namespace RlAqs

variable {N : Type} {graph : Graph}

/-! What the networks go through at an update. -/

def Approximator.presentAll (approximator : Approximator N) (networks : N)
    (shown : List (Nat × List ℚ)) : N :=
  shown.foldl (fun networks vector => (approximator.present networks vector.1 vector.2).1) networks

theorem Approximator.presentAll_concat (approximator : Approximator N) (networks : N)
    (shown : List (Nat × List ℚ)) (vector : Nat × List ℚ) :
    approximator.presentAll networks (shown ++ [vector]) =
      (approximator.present (approximator.presentAll networks shown) vector.1 vector.2).1 :=
  List.foldl_append

def ResponseHandler.shown (handler : ResponseHandler) (agent : Agent N) (router : Router N)
    (state : Nat × Nat → List ℚ) (vertex : Nat) (targets : List Nat) : List (Nat × List ℚ) :=
  (targets.filter fun target => handler.predicts agent router (vertex, target)).map fun target =>
    (handler.network agent router.maps (vertex, target), state (vertex, target))

/-- The networks after an update: as they were, or one of them is trained after the predictions
of the values and of the new action. -/
inductive Learns (handler : ResponseHandler) (agent : Agent N)
    (policy : EdgeMaps → UInt16 → Values → Option (EdgeMaps × UInt16)) (out : OutEdges graph)
    (router : Router N) (entry : Entry) (state : Nat × Nat → List ℚ) : N → Prop
  | kept (idle : handler ≠ .hybridFullRl ∨ ¬ 1 < (out.targets entry.destination.toNat).length) :
      Learns handler agent policy out router entry state router.networks
  | trained (many : 1 < (out.targets entry.destination.toNat).length)
      (used : entry.origin.toNat ∈ out.targets entry.destination.toNat) (action : UInt16)
      (chosen : action.toNat ∈ out.targets entry.destination.toNat)
      (answered : handler = .hybridFullRl →
        HybridFullRLResponseHandler.newAction agent policy out router entry state = some action)
      (before after : N)
      (presented : before = agent.networks.presentAll router.networks
        (handler.shown agent router state entry.destination.toNat
            (out.targets entry.destination.toNat) ++
          [(handler.network agent router.maps (entry.destination.toNat, action.toNat),
            state (entry.destination.toNat, action.toNat))]))
      (last : ∃ goal later, after = agent.networks.presentAll (agent.networks.train before
        (handler.network agent router.maps (entry.destination.toNat, entry.origin.toNat)) goal)
          later) :
      Learns handler agent policy out router entry state after

theorem one_lt_length {α : Type} {items : List α} (some_item : items = [] → False)
    (not_single : ∀ item, items = [item] → False) : 1 < items.length := by
  rcases items with _ | ⟨first, _ | ⟨second, rest⟩⟩
  · exact (some_item rfl).elim
  · exact (not_single first rfl).elim
  · simp

section Learns

variable {agent : Agent N} {out : OutEdges graph} {router next : Router N} {entry : Entry}
  {reward : ℚ} {state : Nat × Nat → List ℚ}
  {policy : EdgeMaps → UInt16 → Values → Option (EdgeMaps × UInt16)}

theorem Router.deterministic_networks {index vertex target : Nat}
    (done : router.deterministic index vertex target reward = some next) :
    next.networks = router.networks ∧ next.maps = router.maps := by
  obtain ⟨mean, _, rfl⟩ := Option.map_eq_some_iff.mp done
  exact ⟨rfl, rfl⟩

theorem FullRLResponseHandler.values_networks (vertex : Nat) (networks : N) (targets : List Nat) :
    (values agent router vertex state networks targets).1 =
      agent.networks.presentAll networks (targets.map fun target =>
        (index agent router.maps (vertex, target), state (vertex, target))) := by
  induction targets generalizing networks with
  | nil => rfl
  | cons target rest ih => exact ih _

theorem HybridFullRLResponseHandler.value_networks {networks : N} {edge : Nat × Nat}
    {vector : List ℚ} {found : N × ℚ}
    (valued : value agent router networks edge vector = some found) :
    found.1 = agent.networks.presentAll networks
      (if ResponseHandler.hybridFullRl.predicts agent router edge then
        [(router.maps.index edge, vector)] else []) := by
  unfold value at valued
  dsimp only at valued
  split at valued
  · rename_i warming
    obtain ⟨mean, _, rfl⟩ := Option.map_eq_some_iff.mp valued
    simp [ResponseHandler.predicts, warming, Approximator.presentAll]
  · rename_i warm
    rw [← Option.some.inj valued]
    simp [ResponseHandler.predicts, warm, Approximator.presentAll]

theorem HybridFullRLResponseHandler.values_networks {vertex : Nat} {networks : N}
    {targets : List Nat} {found : N × Values}
    (computed : values agent router vertex state networks targets = some found) :
    found.1 = agent.networks.presentAll networks
      (ResponseHandler.hybridFullRl.shown agent router state vertex targets) := by
  induction targets generalizing networks found with
  | nil =>
      rw [← Option.some.inj computed]
      rfl
  | cons target rest ih =>
      simp only [values, Option.bind_eq_bind, Option.bind_eq_some_iff] at computed
      obtain ⟨first, valued, later, tail, same⟩ := computed
      rw [← Option.some.inj same, ih tail, value_networks valued]
      unfold ResponseHandler.shown
      rw [List.filter_cons]
      split <;> rfl

theorem FullRLResponseHandler.updateWith_learns
    (done : updateWith agent policy out router entry reward state = some next) :
    Learns .fullRl agent policy out router entry state next.networks := by
  unfold updateWith at done
  dsimp only at done
  split at done
  · rename_i none
    rw [← Option.some.inj done]
    exact .kept (.inl (by decide))
  · rw [(Router.deterministic_networks done).1]
    exact .kept (.inl (by decide))
  · rename_i none single
    have all : ResponseHandler.fullRl.shown agent router state entry.destination.toNat
        (out.targets entry.destination.toNat) =
          (out.targets entry.destination.toNat).map fun target =>
            (index agent router.maps (entry.destination.toNat, target),
              state (entry.destination.toNat, target)) := by
      simp [ResponseHandler.shown, ResponseHandler.predicts, ResponseHandler.network]
    simp only [Option.bind_eq_bind, Option.bind_eq_some_iff] at done
    obtain ⟨answer, _, oldE, found, newE, picked, same⟩ := done
    obtain ⟨rfl, used⟩ := OutEdges.edge_eq_some found
    obtain ⟨rfl, chosen⟩ := OutEdges.edge_eq_some picked
    have before := @values_networks N agent router state
      entry.destination.toNat router.networks (out.targets entry.destination.toNat)
    rw [← Option.some.inj same]
    have notHybrid : ResponseHandler.fullRl ≠ .hybridFullRl := by decide
    refine .trained (one_lt_length none single) used answer.2 chosen
      (fun hybrid => absurd hybrid notHybrid) _ _ ?_
      ⟨_, [(index agent router.maps (entry.destination.toNat, entry.origin.toNat),
        state (entry.destination.toNat, entry.origin.toNat))], rfl⟩
    rw [all, Approximator.presentAll_concat, ← before]
    rfl

theorem HybridFullRLResponseHandler.updateWith_learns
    (done : updateWith agent policy out router entry reward state = some next)
    (indexed : ∀ maps source values answer, policy maps source values = some answer →
      answer.1.index = maps.index) :
    Learns .hybridFullRl agent policy out router entry state next.networks := by
  unfold updateWith at done
  dsimp only at done
  split at done
  · rename_i none
    rw [← Option.some.inj done]
    exact .kept (.inr (by simp [none]))
  · rename_i only
    rw [(Router.deterministic_networks done).1]
    exact .kept (.inr (by simp [only]))
  · rename_i none single
    simp only [Option.bind_eq_bind, Option.bind_eq_some_iff] at done
    obtain ⟨listed, computed, answer, answered, oldE, found, newE, picked, last, valued, same⟩ :=
      done
    obtain ⟨rfl, used⟩ := OutEdges.edge_eq_some found
    obtain ⟨rfl, chosen⟩ := OutEdges.edge_eq_some picked
    have kept := indexed _ _ _ _ answered
    have action : newAction agent policy out router entry state = some answer.2 := by
      simp only [newAction, computed, answered, Option.bind_eq_bind, Option.bind_some]
      rfl
    have before := values_networks computed
    rw [← Option.some.inj same]
    refine .trained (one_lt_length none single) used answer.2 chosen (fun _ => action) _ _ ?_
      ⟨_, _, value_networks valued⟩
    rw [Approximator.presentAll_concat, ← before]
    simp only [ResponseHandler.network, ← kept]
    rfl

theorem RLResponseHandler.updateWith_networks {qAlpha qLambda : ℚ}
    (done : updateWith policy qAlpha qLambda out router entry reward = some next) :
    next.networks = router.networks := by
  unfold updateWith at done
  dsimp only at done
  split at done
  · rw [← Option.some.inj done]
    rfl
  · exact (Router.deterministic_networks done).1
  · simp only [Option.bind_eq_bind, Option.bind_eq_some_iff] at done
    obtain ⟨answer, _, oldE, _, newE, _, same⟩ := done
    rw [← Option.some.inj same]
    rfl

theorem ResponseHandler.updateWith_learns {handler : ResponseHandler} {policy : EdgePolicy}
    (done : handler.updateWith agent policy.call out router entry reward state = some next) :
    Learns handler agent policy.call out router entry state next.networks := by
  cases handler with
  | rl =>
      rw [RLResponseHandler.updateWith_networks done]
      exact .kept (.inl (by decide))
  | fullRl => exact FullRLResponseHandler.updateWith_learns done
  | hybridFullRl => exact HybridFullRLResponseHandler.updateWith_learns done policy.index_kept

theorem ResponseHandler.updateWith_index {handler : ResponseHandler} {policy : EdgePolicy}
    (done : handler.updateWith agent policy.call out router entry reward state = some next) :
    next.maps.index = router.maps.index := by
  cases handler with
  | rl | fullRl =>
      simp only [updateWith, RLResponseHandler.updateWith, FullRLResponseHandler.updateWith] at done
      split at done
      · rw [← Option.some.inj done]
        rfl
      · rw [(Router.deterministic_networks done).2]
      · simp only [Option.bind_eq_bind, Option.bind_eq_some_iff] at done
        obtain ⟨answer, answered, oldE, _, newE, _, same⟩ := done
        rw [← Option.some.inj same]
        exact policy.index_kept _ _ _ _ answered
  | hybridFullRl =>
      simp only [updateWith, HybridFullRLResponseHandler.updateWith] at done
      split at done
      · rw [← Option.some.inj done]
        rfl
      · rw [(Router.deterministic_networks done).2]
      · simp only [Option.bind_eq_bind, Option.bind_eq_some_iff] at done
        obtain ⟨listed, _, answer, answered, oldE, _, newE, _, last, _, same⟩ := done
        rw [← Option.some.inj same]
        exact policy.index_kept _ _ _ _ answered

theorem NetworkTurn.step_index {handler : ResponseHandler} {turn : NetworkTurn}
    (stepped : turn.step handler agent out router = some next) :
    next.maps.index = router.maps.index := by
  cases turn with
  | acknowledged policy entry state =>
      obtain ⟨reward, _, updated⟩ := Option.bind_eq_some_iff.mp stepped
      exact ResponseHandler.updateWith_index updated
  | selected policy source =>
      simp only [step] at stepped
      split at stepped
      · obtain ⟨answer, answered, rfl⟩ := Option.map_eq_some_iff.mp stepped
        exact policy.index_kept _ _ _ _ answered
      · rw [← Option.some.inj stepped]

end Learns

/-! What is observed. -/

section Observations

variable {approximator : Approximator N} {observed : Observed N}

def Observed.Past (observed : Observed N) : Prop :=
  ∀ index turn inputs, observed.presented index = some (turn, inputs) → turn ≤ observed.now

theorem presentAll_observed (shown : List (Nat × List ℚ)) :
    (approximator.observed.presentAll observed shown).now = observed.now ∧
      (approximator.observed.presentAll observed shown).trained = observed.trained := by
  induction shown generalizing observed with
  | nil => exact ⟨rfl, rfl⟩
  | cons vector rest ih => exact @ih (approximator.observed.present observed vector.1 vector.2).1

theorem presentAll_presented {index : Nat} {inputs : List ℚ} (shown : List (Nat × List ℚ))
    (same : ∀ vector ∈ shown, vector.1 = index → vector.2 = inputs) :
    (approximator.observed.presentAll observed shown).presented index =
      if index ∈ shown.map Prod.fst then some (observed.now, inputs)
      else observed.presented index := by
  induction shown generalizing observed with
  | nil => rfl
  | cons vector rest ih =>
      have later := @ih (approximator.observed.present observed vector.1 vector.2).1
        fun other member => same other (List.mem_cons_of_mem _ member)
      rw [List.map_cons]
      refine later.trans ?_
      by_cases again : index ∈ rest.map Prod.fst
      · rw [if_pos again, if_pos (List.mem_cons_of_mem _ again)]
        rfl
      · rw [if_neg again]
        by_cases here : vector.1 = index
        · subst here
          rw [if_pos List.mem_cons_self, ← same vector List.mem_cons_self rfl]
          exact Function.update_self ..
        · rw [if_neg (by simpa [Ne.symm here] using again)]
          exact Function.update_of_ne (Ne.symm here) ..

theorem Observed.Past.presentAll (past : observed.Past) (shown : List (Nat × List ℚ)) :
    (approximator.observed.presentAll observed shown).Past := by
  induction shown generalizing observed with
  | nil => exact past
  | cons vector rest ih =>
      refine @ih (approximator.observed.present observed vector.1 vector.2).1 ?_
      intro index turn inputs found
      by_cases here : index = vector.1
      · subst here
        have stamp := (Function.update_self vector.1 _ observed.presented).symm.trans found
        rw [Option.some.injEq, Prod.mk.injEq] at stamp
        exact stamp.1.ge
      · exact past index turn inputs
          ((Function.update_of_ne here _ observed.presented).symm.trans found)

theorem Observed.Past.learns {handler : ResponseHandler} {agent : Agent N}
    {policy : EdgeMaps → UInt16 → Values → Option (EdgeMaps × UInt16)} {out : OutEdges graph}
    {router : Router (Observed N)} {entry : Entry} {state : Nat × Nat → List ℚ}
    {after : Observed N} (past : router.networks.Past)
    (learns : Learns handler agent.observed policy out router entry state after) : after.Past := by
  cases learns with
  | kept idle => exact past
  | trained many used action chosen answered before _ presented last =>
      obtain ⟨goal, later, rfl⟩ := last
      subst presented
      refine @Past.presentAll N agent.networks _ ?_ later
      exact @Past.presentAll N agent.networks _ past _

end Observations

section Training

variable {handler : ResponseHandler} {agent : Agent N} {out : OutEdges graph}

theorem network_observed (maps : EdgeMaps) (edge : Nat × Nat) :
    handler.network agent.observed maps edge = handler.network agent maps edge := by
  cases handler <;> rfl

theorem predicts_observed (router : Router (Observed N)) (edge : Nat × Nat) :
    handler.predicts agent.observed router edge =
      handler.predicts agent router.unobserved edge := by
  cases handler <;> rfl

theorem OwnNetworks.target_eq {maps : EdgeMaps} (own : OwnNetworks handler agent out maps)
    {vertex left right : Nat} (leftIn : left ∈ out.targets vertex)
    (rightIn : right ∈ out.targets vertex)
    (same : handler.network agent maps (vertex, left) =
      handler.network agent maps (vertex, right)) :
    left = right :=
  (List.nodup_map_iff_inj_on (out.distinct vertex)).mp (own vertex) left leftIn right rightIn same

theorem OwnNetworks.shown_iff {router : Router N} (own : OwnNetworks handler agent out router.maps)
    {vertex origin chosen : Nat} (used : origin ∈ out.targets vertex)
    (picked : chosen ∈ out.targets vertex) (state : Nat × Nat → List ℚ) :
    handler.network agent router.maps (vertex, origin) ∈
        (handler.shown agent router state vertex (out.targets vertex) ++
          [(handler.network agent router.maps (vertex, chosen), state (vertex, chosen))]).map
            Prod.fst ↔
      handler.predicts agent router (vertex, origin) ∨ chosen = origin := by
  simp only [ResponseHandler.shown, List.map_append, List.map_map, List.mem_append, List.mem_map,
    List.mem_filter, Function.comp_apply, List.map_cons, List.map_nil, List.mem_singleton]
  constructor
  · rintro (⟨target, ⟨member, predicted⟩, same⟩ | same)
    · rw [own.target_eq member used same] at predicted
      exact .inl predicted
    · exact .inr (own.target_eq used picked same).symm
  · rintro (predicted | rfl)
    · exact .inl ⟨origin, ⟨used, predicted⟩, rfl⟩
    · exact .inr rfl

theorem OwnNetworks.shown_state {router : Router N}
    (own : OwnNetworks handler agent out router.maps) {vertex origin chosen : Nat}
    (used : origin ∈ out.targets vertex) (picked : chosen ∈ out.targets vertex)
    (state : Nat × Nat → List ℚ) :
    ∀ vector ∈ handler.shown agent router state vertex (out.targets vertex) ++
        [(handler.network agent router.maps (vertex, chosen), state (vertex, chosen))],
      vector.1 = handler.network agent router.maps (vertex, origin) →
        vector.2 = state (vertex, origin) := by
  intro vector member same
  rcases List.mem_append.mp member with listed | last
  · obtain ⟨target, inside, rfl⟩ := List.mem_map.mp listed
    rw [own.target_eq (List.mem_of_mem_filter inside) used same]
  · rw [List.mem_singleton] at last
    subst last
    rw [own.target_eq picked used same]

variable {router next : Router (Observed N)} {turn : NetworkTurn}

theorem Learns.trained_eq {policy : EdgeMaps → UInt16 → Values → Option (EdgeMaps × UInt16)}
    {entry : Entry} {state : Nat × Nat → List ℚ} {after : Observed N}
    (own : OwnNetworks handler agent.observed out router.maps)
    (learns : Learns handler agent.observed policy out router entry state after) :
    (after.trained = router.networks.trained ∧
        (handler ≠ .hybridFullRl ∨ ¬ 1 < (out.targets entry.destination.toNat).length)) ∨
      1 < (out.targets entry.destination.toNat).length ∧
        ∃ action : UInt16, (handler = .hybridFullRl →
          HybridFullRLResponseHandler.newAction agent.observed policy out router entry state =
            some action) ∧
        after.trained = router.networks.trained ++
          [(handler.network agent.observed router.maps
              (entry.destination.toNat, entry.origin.toNat),
            if handler.predicts agent.observed router
                (entry.destination.toNat, entry.origin.toNat) ∨
                action.toNat = entry.origin.toNat then
              some (router.networks.now, state (entry.destination.toNat, entry.origin.toNat))
            else router.networks.presented (handler.network agent.observed router.maps
              (entry.destination.toNat, entry.origin.toNat)))] := by
  cases learns with
  | kept idle => exact .inl ⟨rfl, idle⟩
  | trained many used action chosen answered before _ presented last =>
      obtain ⟨goal, later, rfl⟩ := last
      subst presented
      refine .inr ⟨many, action, answered, ?_⟩
      have shown := own.shown_state used chosen state
      refine (presentAll_observed later).2.trans ?_
      refine congrArg₂ (fun trained presented => trained ++ [(_, presented)])
        (presentAll_observed _).2 ?_
      refine (presentAll_presented _ shown).trans ?_
      simp only [own.shown_iff used chosen state]

theorem Observed.Past.fresh {observed : Observed N} (past : observed.Past) (index : Nat)
    (inputs : List ℚ) : observed.presented index ≠ some (observed.now + 1, inputs) := by
  intro found
  have bound := past index _ _ found
  omega

theorem NetworkTurn.trainsOnState_of_kept
    (watched : turn.watch handler agent out router = some next)
    (kept : next.networks.trained = router.networks.trained) :
    turn.TrainsOnState handler agent out router := by
  intro other again training member
  cases watched.symm.trans again
  rw [kept, List.drop_length] at member
  exact absurd member List.not_mem_nil

theorem NetworkTurn.selected_trained {policy : EdgePolicy} {source : Nat}
    (watched : (selected policy source).watch handler agent out router = some next) :
    next.networks.trained = router.networks.trained := by
  simp only [watch, step] at watched
  split at watched
  · obtain ⟨answer, _, rfl⟩ := Option.map_eq_some_iff.mp watched
    rfl
  · rw [← Option.some.inj watched]
    rfl

/-- The one training of an acknowledgement is on the state of the edge just used if and only if
that state has been shown: what was presented before has an earlier stamp. -/
theorem NetworkTurn.trainsOnState_acknowledged_iff {policy : EdgePolicy} {entry : Entry}
    {state : Nat × Nat → List ℚ} {shown : Prop} [Decidable shown]
    (past : router.networks.Past)
    (watched : (acknowledged policy entry state).watch handler agent out router = some next)
    (added : next.networks.trained.drop router.networks.trained.length =
      [(handler.network agent router.maps (entry.destination.toNat, entry.origin.toNat),
        if shown then
          some (router.networks.now + 1, state (entry.destination.toNat, entry.origin.toNat))
        else router.networks.presented (handler.network agent router.maps
          (entry.destination.toNat, entry.origin.toNat)))]) :
    (acknowledged policy entry state).TrainsOnState handler agent out router ↔ shown := by
  constructor
  · intro onState
    by_contra stale
    have same := onState next watched _ (by rw [added]; exact List.mem_singleton_self _)
    rw [if_neg stale] at same
    exact past.fresh _ _ (Prod.mk.inj same).2
  · intro present other again training member
    cases watched.symm.trans again
    rw [added, List.mem_singleton, if_pos present] at member
    exact member

theorem NetworkTurn.trainsOnState_iff (own : OwnNetworks handler agent out router.maps)
    (past : router.networks.Past) (watched : turn.watch handler agent out router = some next) :
    turn.TrainsOnState handler agent out router ↔
      turn.ShowsState handler agent out router.unobserved := by
  cases turn with
  | selected policy source =>
      refine iff_of_true (trainsOnState_of_kept watched (selected_trained watched)) ?_
      cases handler <;> trivial
  | acknowledged policy entry state =>
      obtain ⟨reward, _, updated⟩ := Option.bind_eq_some_iff.mp watched
      have learns := ResponseHandler.updateWith_learns updated
      have ownObserved : OwnNetworks handler agent.observed out router.tick.maps := by
        intro vertex
        simp only [network_observed]
        exact own vertex
      rcases learns.trained_eq ownObserved with ⟨kept, idle⟩ | ⟨many, action, answered, trained⟩
      · refine iff_of_true (trainsOnState_of_kept watched kept) ?_
        cases handler with
        | rl | fullRl => trivial
        | hybridFullRl =>
            exact fun many => absurd many (idle.resolve_left fun other => other rfl)
      · have trains : (acknowledged policy entry state).TrainsOnState handler agent out router ↔
            (handler.predicts agent router.unobserved
                (entry.destination.toNat, entry.origin.toNat) ∨
              action.toNat = entry.origin.toNat) := by
          refine trainsOnState_acknowledged_iff past watched ?_
          rw [trained]
          simp only [predicts_observed, network_observed]
          exact List.drop_left
        -- only the hybrid handler can leave the state unshown
        rw [trains]
        cases handler with
        | rl | fullRl => exact iff_of_true (.inl rfl) trivial
        | hybridFullRl =>
            have picked := answered rfl
            rw [HybridFullRLResponseHandler.newAction_unobserved] at picked
            change HybridFullRLResponseHandler.newAction agent policy.call out router.unobserved
              entry state = some action at picked
            simp only [ShowsState, picked, Option.map_some, Option.some.injEq,
              ResponseHandler.predicts, Bool.not_eq_true', decide_eq_false_iff_not]
            exact ⟨fun shown _ => shown, fun shown => shown many⟩

theorem OwnNetworks.kept {maps after : EdgeMaps} (own : OwnNetworks handler agent out maps)
    (same : after.index = maps.index) : OwnNetworks handler agent out after := by
  have network : ∀ edge, handler.network agent after edge = handler.network agent maps edge := by
    intro edge
    cases handler <;> simp only [ResponseHandler.network, FullRLResponseHandler.index, same]
  intro vertex
  simp only [network]
  exact own vertex

theorem Observed.Past.watch (past : router.networks.Past)
    (watched : turn.watch handler agent out router = some next) : next.networks.Past := by
  have ticked : router.tick.networks.Past :=
    fun index stamp inputs found => (past index stamp inputs found).trans (Nat.le_succ _)
  cases turn with
  | acknowledged policy entry state =>
      obtain ⟨reward, _, updated⟩ := Option.bind_eq_some_iff.mp watched
      exact ticked.learns (ResponseHandler.updateWith_learns updated)
  | selected policy source =>
      simp only [NetworkTurn.watch, NetworkTurn.step] at watched
      split at watched
      · obtain ⟨answer, _, rfl⟩ := Option.map_eq_some_iff.mp watched
        exact ticked
      · rw [← Option.some.inj watched]
        exact ticked

end Training

/-- Along any run every training is on the state of the edge just used if and only if every turn
shows its network that state: each handler but the hybrid one does at every turn. -/
theorem run_trains_on_state_iff {handler : ResponseHandler} {agent : Agent N} {out : OutEdges graph}
    {router final : Router N} {turns : List NetworkTurn}
    (own : OwnNetworks handler agent out router.maps)
    (ran : Runs.run (NetworkTurn.step handler agent out) router turns = some final) :
    Runs.Along (NetworkTurn.watch handler agent out) (NetworkTurn.TrainsOnState handler agent out)
        router.observed turns ↔
      Runs.Along (NetworkTurn.step handler agent out) (NetworkTurn.ShowsState handler agent out)
        router turns := by
  refine Runs.along_iff_of_project Router.unobserved
    (fun router => router.networks.Past ∧ OwnNetworks handler agent out router.maps)
    (fun router turn => turn.watch_unobserved router handler) ?_ ?_ ⟨nofun, own⟩ ran
  · rintro router turn next ⟨past, own⟩ watched
    have ticked : turn.step handler agent.observed out router.tick = some next := watched
    have index := NetworkTurn.step_index ticked
    exact ⟨past.watch watched, own.kept index⟩
  · rintro router turn next ⟨past, own⟩ watched
    exact NetworkTurn.trainsOnState_iff own past watched

/-! Two turns at a fork. -/

def warmingAgent : Agent Unit := { forkSetup.agent with randomIter := 1 }

def answeredThen (uniform : ℚ) : NetworkTurn :=
  let job := EventGenerator.generateArrival 1 0 0 (2 : Nat)
  .acknowledged (warmingAgent.edgePolicy 4 ⟨uniform, fun _ => 0⟩)
    { job with
      arrival := 4, origin := 1, type := ackEvent, eventPath := [-1]
      eventArrivals := [3] }
    fun edge => [(edge.2 : ℚ)]

instance (handler : ResponseHandler) (agent : Agent N) (out : OutEdges graph) (router : Router N)
    (turn : NetworkTurn) : Decidable (turn.ShowsState handler agent out router) :=
  match handler, turn with
  | .rl, _ => .isTrue trivial
  | .fullRl, _ => .isTrue trivial
  | .hybridFullRl, .selected _ _ => .isTrue trivial
  | .hybridFullRl, .acknowledged _ _ _ => inferInstanceAs (Decidable (_ → _ ∨ _))

/-- The policy turns to vertex 2 while the edge to vertex 1 warms up, and the network of that edge,
never presented with anything, is trained. -/
theorem hybrid_trains_unshown :
    (∃ final, Runs.run (NetworkTurn.step .hybridFullRl warmingAgent forkOut) forkRouter
        [answeredThen (9 / 10)] = some final) ∧
      ¬ Runs.Along (NetworkTurn.watch .hybridFullRl warmingAgent forkOut)
        (NetworkTurn.TrainsOnState .hybridFullRl warmingAgent forkOut) forkRouter.observed
          [answeredThen (9 / 10)] := by
  have ends : (Runs.run (NetworkTurn.step .hybridFullRl warmingAgent forkOut) forkRouter
      [answeredThen (9 / 10)]).isSome := by decide +kernel
  have unshown : ((answeredThen (9 / 10)).watch .hybridFullRl warmingAgent forkOut
      forkRouter.observed).any (fun next => decide (next.networks.trained = [(1, none)])) := by
    decide +kernel
  obtain ⟨next, watched, trained⟩ := (Option.any_eq_true _ _).mp unshown
  refine ⟨Option.isSome_iff_exists.mp ends, fun along => ?_⟩
  have onState := along.1 next watched (1, none) (by
    rw [of_decide_eq_true trained]
    exact List.mem_singleton_self _)
  exact absurd (Prod.mk.inj onState).2 (by simp)

/-- The edge just used is picked again as long as it warms up. -/
theorem run_trains_on_state_fork :
    (∃ final, Runs.run (NetworkTurn.step .hybridFullRl warmingAgent forkOut) forkRouter
        [answeredThen 0, answeredThen (9 / 10)] = some final) ∧
      Runs.Along (NetworkTurn.watch .hybridFullRl warmingAgent forkOut)
        (NetworkTurn.TrainsOnState .hybridFullRl warmingAgent forkOut) forkRouter.observed
          [answeredThen 0, answeredThen (9 / 10)] := by
  have ends : (Runs.run (NetworkTurn.step .hybridFullRl warmingAgent forkOut) forkRouter
      [answeredThen 0, answeredThen (9 / 10)]).isSome := by decide +kernel
  obtain ⟨final, ran⟩ := Option.isSome_iff_exists.mp ends
  have own : OwnNetworks .hybridFullRl warmingAgent forkOut forkRouter.maps := by
    intro vertex
    by_cases root : vertex = 0 <;>
      simp [forkOut, root, ResponseHandler.network, forkRouter, forkMaps]
  refine ⟨⟨final, ran⟩, (run_trains_on_state_iff own ran).mpr ?_⟩
  exact Runs.along_of_check (by decide +kernel)

end RlAqs
