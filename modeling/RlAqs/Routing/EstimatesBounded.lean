import RlAqs.Library.Discounted
import RlAqs.Routing.RoutedRuns

/-!
The tabular estimates of `RLResponseHandler` stay between what rewards of one size can add up to
and zero, whatever the policy.
-/

namespace RlAqs

open Handlers EventGenerator

variable {N : Type} {graph : Graph}

inductive RouterTurn
  | acknowledged (policy : EdgeMaps → UInt16 → Values → Option (EdgeMaps × UInt16)) (entry : Entry)
  | selected (maps : EdgeMaps)

def RouterTurn.reward : RouterTurn → Option ℚ
  | acknowledged _ entry => entry.getReward
  | selected _ => none

def RouterTurn.step (qAlpha qLambda : ℚ) (out : OutEdges graph) (router : Router N) :
    RouterTurn → Option (Router N)
  | acknowledged policy entry =>
      entry.getReward.bind (RLResponseHandler.updateWith policy qAlpha qLambda out router entry)
  | selected maps => some { router with maps := maps }

/-! The running mean. -/

namespace OnlineStats

def Within (range : Set ℚ) (stats : OnlineStats) : Prop :=
  1 ≤ stats.n → ∃ m ∈ range, stats.oldM = some m ∧ (1 < stats.n → stats.newM = some m)

variable {range : Set ℚ} {stats : OnlineStats}

theorem fresh_within : fresh.Within range := fun counted => absurd counted (by decide)

/-- The count may come back to zero: the mean is then as good as fresh. -/
theorem Within.push {low high x : ℚ} (within : stats.Within (Set.Icc low high))
    (inside : x ∈ Set.Icc low high) : (stats.push x).Within (Set.Icc low high) := by
  unfold OnlineStats.push
  dsimp only
  split
  · rename_i first
    exact fun _ => ⟨x, inside, rfl, fun more => absurd more (by dsimp only; omega)⟩
  · rename_i later
    intro counted
    dsimp only at counted
    obtain ⟨m, mean, old, _⟩ := within (by omega)
    have nonzero : (((stats.n + 1) % 2 ^ 32 : Nat) : ℚ) ≠ 0 := by
      exact_mod_cast Nat.ne_of_gt counted
    have moved := Discounted.mean_mem mean inside counted
    simp only [old, Option.bind_some, divide, nonzero, if_false, Option.map_some]
    exact ⟨_, moved, rfl, fun _ => rfl⟩

theorem Within.mean (within : stats.Within range) (zero : 0 ∈ range) :
    ∃ m ∈ range, stats.mean = some m := by
  unfold OnlineStats.mean
  split
  · rename_i more
    obtain ⟨m, inside, _, new⟩ := within (by omega)
    exact ⟨m, inside, new more⟩
  split
  · rename_i first
    obtain ⟨m, inside, old, _⟩ := within (by omega)
    exact ⟨m, inside, old⟩
  · exact ⟨0, zero, rfl⟩

end OnlineStats

/-! The estimates. -/

structure Bounded (rewardBound qLambda : ℚ) (router : Router N) : Prop where
  values : ∀ edge, router.qVal edge ∈ Set.Icc (-Discounted.horizon rewardBound qLambda) 0
  means : ∀ index, (router.qStats index).Within (Set.Icc (-rewardBound) 0)

section Bounded

variable {out : OutEdges graph} {router next : Router N} {rewardBound qAlpha qLambda reward : ℚ}

theorem Bounded.deterministic (bounded : Bounded rewardBound qLambda router)
    (size : 0 ≤ rewardBound) (start : 0 ≤ qLambda) (below : qLambda < 1)
    (rewarded : reward ∈ Set.Icc (-rewardBound) 0) (index vertex target : Nat) :
    ∃ next, router.deterministic index vertex target reward = some next ∧
      Bounded rewardBound qLambda next := by
  have wide := Discounted.bound_le_horizon size start below
  have within := (bounded.means index).push rewarded
  obtain ⟨m, inside, mean⟩ := within.mean ⟨neg_nonpos.mpr size, le_rfl⟩
  refine ⟨_, by rw [Router.deterministic, mean, Option.map_some], ?_, ?_⟩
  · intro edge
    simp only [Router.setNextAction, Function.update_apply]
    split
    · exact ⟨(neg_le_neg wide).trans inside.1, inside.2⟩
    · exact bounded.values edge
  · intro other
    simp only [Router.setNextAction, Function.update_apply]
    split
    · exact within
    · exact bounded.means other

theorem Bounded.learnt (bounded : Bounded rewardBound qLambda router)
    (start : 0 ≤ qLambda) (below : qLambda < 1) (part : qAlpha ∈ Set.Icc 0 1)
    (rewarded : reward ∈ Set.Icc (-rewardBound) 0) (oldE newE : Nat × Nat) :
    router.qVal oldE + qAlpha * reward +
        (qAlpha * qLambda * router.qVal newE - qAlpha * router.qVal oldE) ∈
      Set.Icc (-Discounted.horizon rewardBound qLambda) 0 := by
  have target := Discounted.backup_mem start below rewarded (bounded.values newE)
  have moved := Discounted.toward_mem (bounded.values oldE) target part
  have same : router.qVal oldE + qAlpha * reward +
      (qAlpha * qLambda * router.qVal newE - qAlpha * router.qVal oldE) =
        router.qVal oldE + qAlpha * (reward + qLambda * router.qVal newE - router.qVal oldE) := by
    ring
  rwa [same]

theorem Bounded.updateWith {policy : EdgeMaps → UInt16 → Values → Option (EdgeMaps × UInt16)}
    {entry : Entry} (bounded : Bounded rewardBound qLambda router) (size : 0 ≤ rewardBound)
    (start : 0 ≤ qLambda) (below : qLambda < 1) (part : qAlpha ∈ Set.Icc 0 1)
    (rewarded : reward ∈ Set.Icc (-rewardBound) 0)
    (updated : RLResponseHandler.updateWith policy qAlpha qLambda out router entry reward =
      some next) : Bounded rewardBound qLambda next := by
  unfold RLResponseHandler.updateWith at updated
  dsimp only at updated
  split at updated
  · rw [← Option.some.inj updated]
    exact ⟨bounded.values, bounded.means⟩
  · obtain ⟨after, found, kept⟩ := bounded.deterministic size start below rewarded _ _ _
    rw [found] at updated
    exact Option.some.inj updated ▸ kept
  · simp only [Option.bind_eq_bind, Option.bind_eq_some_iff] at updated
    obtain ⟨answer, _, oldE, _, newE, _, same⟩ := updated
    rw [← Option.some.inj same]
    refine ⟨fun edge => ?_, bounded.means⟩
    simp only [Router.setNextAction, Function.update_apply]
    split
    · exact bounded.learnt start below part rewarded oldE newE
    · exact bounded.values edge

theorem getReward_nonpos {entry : Entry} (found : entry.getReward = some reward) : reward ≤ 0 := by
  obtain ⟨top, _, rfl⟩ := Option.map_eq_some_iff.mp found
  split
  · exact le_of_lt ‹_›
  · exact le_rfl

theorem Bounded.step {turn : RouterTurn} (bounded : Bounded rewardBound qLambda router)
    (size : 0 ≤ rewardBound) (start : 0 ≤ qLambda) (below : qLambda < 1)
    (part : qAlpha ∈ Set.Icc 0 1) (rewards : ∀ reward ∈ turn.reward, -rewardBound ≤ reward)
    (stepped : turn.step qAlpha qLambda out router = some next) :
    Bounded rewardBound qLambda next := by
  cases turn with
  | acknowledged policy entry =>
      obtain ⟨reward, found, updated⟩ := Option.bind_eq_some_iff.mp stepped
      exact bounded.updateWith size start below part ⟨rewards reward found, getReward_nonpos found⟩
        updated
  | selected maps =>
      rw [← Option.some.inj stepped]
      exact ⟨bounded.values, bounded.means⟩

theorem start_bounded (size : 0 ≤ rewardBound) (start : 0 ≤ qLambda) (below : qLambda < 1)
    (zero : ∀ edge, router.qVal edge = 0)
    (fresh : ∀ index, router.qStats index = OnlineStats.fresh) :
    Bounded rewardBound qLambda router where
  values edge := by
    rw [zero edge]
    have wide := Discounted.bound_le_horizon size start below
    exact ⟨by linarith, le_rfl⟩
  means index := by
    rw [fresh index]
    exact OnlineStats.fresh_within

theorem Bounded.value_bounds (bounded : Bounded rewardBound qLambda router) (edge : Nat × Nat) :
    -rewardBound / (1 - qLambda) ≤ router.qVal edge ∧ router.qVal edge ≤ 0 := by
  rw [neg_div]
  exact bounded.values edge

/-- Every value is bounded in every state of every run whose rewards are: no reward is positive, so
they lie between the bound and zero. -/
theorem run_estimates_bounded {turns : List RouterTurn} {final : Router N}
    (size : 0 ≤ rewardBound) (part : 0 ≤ qAlpha ∧ qAlpha ≤ 1) (start : 0 ≤ qLambda)
    (below : qLambda < 1) (zero : ∀ edge, router.qVal edge = 0)
    (fresh : ∀ index, router.qStats index = OnlineStats.fresh)
    (rewards : ∀ turn ∈ turns, ∀ reward ∈ turn.reward, -rewardBound ≤ reward)
    (ran : Runs.run (RouterTurn.step qAlpha qLambda out) router turns = some final)
    (edge : Nat × Nat) :
    -rewardBound / (1 - qLambda) ≤ final.qVal edge ∧ final.qVal edge ≤ 0 := by
  have guarded : Runs.Along (RouterTurn.step qAlpha qLambda out)
      (fun _ turn => ∀ reward ∈ turn.reward, -rewardBound ≤ reward) router turns :=
    Runs.along_of_forall (fun _ turn member => rewards turn member) router
  have bounded : Bounded rewardBound qLambda final :=
    Runs.run_invariant_along _
      (fun _ _ _ kept rewards stepped => kept.step size start below part rewards stepped)
      (start_bounded size start below zero fresh) guarded ran
  exact bounded.value_bounds edge

end Bounded

def forkAnswers : List RouterTurn :=
  let job := generateArrival 1 0 0 (2 : Nat)
  let answer := RouterTurn.acknowledged (fun maps _ _ => some (maps, 2))
    { job with arrival := 4, origin := 2, type := ackEvent, eventPath := [-1], eventArrivals := [3] }
  [answer, answer]

theorem run_estimates_bounded_fork :
    ∃ final, Runs.run (RouterTurn.step (1 / 2) (1 / 2) forkOut) forkRouter forkAnswers = some final ∧
      final.qVal (0, 2) = -7 / 8 ∧ -1 / (1 - 1 / 2) ≤ final.qVal (0, 2) := by
  have ends : (Runs.run (RouterTurn.step (1 / 2) (1 / 2) forkOut) forkRouter forkAnswers).any
      (fun final => decide (final.qVal (0, 2) = -7 / 8)) = true := by decide +kernel
  obtain ⟨final, ran, value⟩ := (Option.any_eq_true _ _).mp ends
  have rewards : ∀ turn ∈ forkAnswers, ∀ reward ∈ turn.reward, (-1 : ℚ) ≤ reward := by
    simp [forkAnswers, RouterTurn.reward, Entry.getReward, Entry.topArrival]
    norm_num
  have bounds : -1 / (1 - 1 / 2) ≤ final.qVal (0, 2) ∧ final.qVal (0, 2) ≤ 0 :=
    run_estimates_bounded (by norm_num) (by norm_num) (by norm_num) (by norm_num) (fun _ => rfl)
      (fun _ => rfl) rewards ran (0, 2)
  exact ⟨final, ran, of_decide_eq_true value, bounds.1⟩

/-! In the event loop. -/

section Routed

variable {setup : RoutingSetup N graph} {config : Config} {router after : Router N} {entry : Entry}
  {draws : RoutingDraws}

/-- A turn of the event loop is one of the router, or leaves the router as it is. -/
theorem RoutingSetup.turn_routerTurn (rl : setup.handler = .rl) {unused selected : Nat}
    (turned : setup.turn config router entry draws unused = some (after, selected)) :
    after = router ∨ ∃ turn : RouterTurn,
      turn.step setup.agent.qAlpha setup.agent.qLambda setup.out router = some after ∧
        ∀ reward ∈ turn.reward, entry.getReward = some reward := by
  unfold RoutingSetup.turn at turned
  split at turned
  · exact .inl (Prod.mk.inj (Option.some.inj turned)).1.symm
  split at turned
  · obtain ⟨⟨next, destination⟩, chosen, same⟩ := Option.map_eq_some_iff.mp turned
    obtain ⟨rfl, _⟩ := Prod.mk.inj same
    unfold RoutingSetup.select at chosen
    split at chosen
    · exact .inl (Prod.mk.inj (Option.some.inj chosen)).1.symm
    · unfold OnPolicySelection.select at chosen
      dsimp only at chosen
      split at chosen
      · obtain ⟨⟨maps, action⟩, _, answered⟩ := Option.map_eq_some_iff.mp chosen
        obtain ⟨rfl, _⟩ := Prod.mk.inj answered
        exact .inr ⟨.selected maps, rfl, nofun⟩
      · exact .inl (Prod.mk.inj (Option.some.inj chosen)).1.symm
  split at turned
  · split at turned
    · exact .inl (Prod.mk.inj (Option.some.inj turned)).1.symm
    · rename_i reward found
      obtain ⟨next, updated, same⟩ := Option.map_eq_some_iff.mp turned
      obtain ⟨rfl, _⟩ := Prod.mk.inj same
      rw [rl] at updated
      refine .inr ⟨.acknowledged (fun maps source values =>
        setup.agent.call entry.arrival maps source values draws.policy) entry, ?_, fun _ => id⟩
      exact Option.bind_eq_some_iff.mpr ⟨reward, found, updated⟩
  · exact .inl (Prod.mk.inj (Option.some.inj turned)).1.symm

/-- In the event loop the estimates are bounded by the rewards of the acknowledgements. -/
theorem routed_estimates_bounded {choices : List RoutedChoice} {final : Processor × Router N}
    {rewardBound : ℚ} (rl : setup.handler = .rl) (size : 0 ≤ rewardBound)
    (part : 0 ≤ setup.agent.qAlpha ∧ setup.agent.qAlpha ≤ 1) (start : 0 ≤ setup.agent.qLambda)
    (below : setup.agent.qLambda < 1) (zero : ∀ edge, router.qVal edge = 0)
    (fresh : ∀ index, router.qStats index = OnlineStats.fresh)
    (rewards : Runs.Along (setup.step config)
      (fun state routed => ∀ reward ∈ (state.1.take routed.choice.entry).getReward,
        -rewardBound ≤ reward) (Processor.start config, router) choices)
    (ran : Runs.run (setup.step config) (Processor.start config, router) choices = some final)
    (edge : Nat × Nat) :
    -rewardBound / (1 - setup.agent.qLambda) ≤ final.2.qVal edge ∧ final.2.qVal edge ≤ 0 := by
  have bounded : Bounded rewardBound setup.agent.qLambda final.2 := by
    refine Runs.run_invariant_along
      (fun state => Bounded rewardBound setup.agent.qLambda state.2) ?_
      (start_bounded size start below zero fresh) rewards ran
    intro state routed next kept rewards stepped
    obtain ⟨selected, turned, _⟩ := RoutingSetup.step_cases stepped
    obtain same | ⟨turn, moved, read⟩ := RoutingSetup.turn_routerTurn rl turned
    · rw [same]
      exact kept
    · exact kept.step size start below part (fun reward found => rewards reward (read reward found))
        moved
  exact bounded.value_bounds edge

end Routed

end RlAqs
