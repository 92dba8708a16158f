import RlAqs.Routing.RegretCore
import RlAqs.Learner.StrategyKept
import Mathlib.Order.Bounds.Basic

/-!
The total regret against the best action. The totals are added up edge by edge, but the regret is
read off the edge whose prediction is the greatest at the moment.
-/

namespace RlAqs

namespace FullRLResponseHandler

variable {graph : Graph} {sorting : Sorting} {out : OutEdges graph} {ack : Acknowledgement}

theorem values_predicted {N : Type} (agent : Agent N) (router : Router N) (vertex : Nat)
    (state : Nat × Nat → List ℚ) (networks : N) {targets : List Nat} (distinct : targets.Nodup) :
    ∃ prediction : Nat → ℚ, (values agent router vertex state networks targets).2 =
      targets.map fun target => (UInt16.ofNat target, prediction target) := by
  induction targets generalizing networks with
  | nil => exact ⟨fun _ => 0, rfl⟩
  | cons target rest ih =>
      obtain ⟨fresh, distinct⟩ := List.nodup_cons.mp distinct
      obtain ⟨later, same⟩ := ih (agent.networks.present networks
        (index agent router.maps (vertex, target)) (state (vertex, target))).1 distinct
      refine ⟨Function.update later target (agent.networks.present networks
        (index agent router.maps (vertex, target)) (state (vertex, target))).2, ?_⟩
      rw [values, List.map_cons, Function.update_self]
      simp only [same]
      congr 1
      refine List.map_congr_left fun other member => ?_
      rw [Function.update_of_ne]
      rintro rfl
      exact fresh member

theorem updateRegret_step {N : Type} {agent : Agent N} {state next : Router N × Regret}
    {entry : Entry} {reward : ℚ} {draws : RoutingDraws} (enabled : agent.regretTotal = true)
    (done : updateRegret out agent state entry reward draws = some next) :
    update agent out state.1 entry reward draws = some next.1 ∧
      ∃ ack : Acknowledgement, ack.vertex = entry.destination.toNat ∧ ack.origin = entry.origin ∧
        ack.reward = reward ∧ regretStep agent.sorting out state.2 ack = some next.2 := by
  unfold updateRegret at done
  simp only [enabled, and_true, Option.bind_eq_some_iff, Option.map_eq_some_iff] at done
  obtain ⟨kept, hooked, router, updated, rfl⟩ := done
  obtain ⟨prediction, predicted⟩ := values_predicted agent state.1 entry.destination.toNat
    draws.state state.1.networks (out.distinct entry.destination.toNat)
  rw [predicted] at hooked
  exact ⟨updated, ⟨entry.destination.toNat, entry.origin, reward, prediction⟩, rfl, rfl, rfl,
    hooked⟩

/-- A run of the handler is a run of its hook, with the predictions that the networks made. -/
theorem run_updateRegret {N : Type} {agent : Agent N} {router : Router N}
    {calls : List (Entry × ℚ × RoutingDraws)} {final : Router N × Regret}
    (enabled : agent.regretTotal = true)
    (ran : Runs.run (fun state call => updateRegret out agent state call.1 call.2.1 call.2.2)
      (router, Regret.fresh) calls = some final) :
    ∃ acks : List Acknowledgement,
      acks.map (fun ack => (ack.vertex, ack.origin, ack.reward)) =
        calls.map (fun call => (call.1.destination.toNat, call.1.origin, call.2.1)) ∧
      Runs.run (regretStep agent.sorting out) Regret.fresh acks = some final.2 := by
  refine Runs.run_induction (motive := fun calls final => ∃ acks : List Acknowledgement,
    acks.map (fun ack => (ack.vertex, ack.origin, ack.reward)) =
      calls.map (fun call => (call.1.destination.toNat, call.1.origin, call.2.1)) ∧
    Runs.run (regretStep agent.sorting out) Regret.fresh acks = some final.2) ?_ ?_ ran
  · exact ⟨[], rfl, rfl⟩
  · rintro calls before call after _ ⟨acks, same, ran⟩ stepped
    obtain ⟨_, ack, vertex, origin, reward, hooked⟩ := updateRegret_step enabled stepped
    refine ⟨acks ++ [ack], ?_, Runs.run_concat ran hooked⟩
    rw [List.map_append, List.map_append, same, List.map_singleton, List.map_singleton, vertex,
      origin, reward]

/-! The sums over the acknowledgements of a vertex. -/

def ofVertex (vertex : Nat) (acks : List Acknowledgement) : List Acknowledgement :=
  acks.filter fun ack => ack.vertex = vertex

/-- What an out-edge is worth: the actual reward where it was used, its prediction otherwise. -/
def total (vertex target : Nat) (acks : List Acknowledgement) : ℚ :=
  ((ofVertex vertex acks).map fun ack =>
    if ack.origin = (target : Int) then ack.reward else ack.prediction target).sum

/-- What an acknowledgement adds for an action of 16 bits, which may stand for several targets. -/
def share (out : OutEdges graph) (ack : Acknowledgement) (action : UInt16) : ℚ :=
  (((answers out ack).filter fun value => value.1 = action).map (credit ack.origin ack.reward)).sum

def credited (out : OutEdges graph) (vertex : Nat) (action : UInt16)
    (acks : List Acknowledgement) : ℚ :=
  ((ofVertex vertex acks).map fun ack => share out ack action).sum

theorem creditAll_eq {values : Values} {before after : Nat × Nat → ℚ}
    (credited : creditAll out ack.vertex ack.origin ack.reward values before = some after) (action : UInt16) :
    after (ack.vertex, action.toNat) = before (ack.vertex, action.toNat) +
      ((values.filter fun value => value.1 = action).map (credit ack.origin ack.reward)).sum := by
  induction values generalizing before with
  | nil =>
      obtain rfl := Option.some.inj credited
      simp
  | cons value rest ih =>
      rw [creditAll, List.foldlM_cons, Option.bind_eq_bind, Option.bind_eq_some_iff] at credited
      obtain ⟨middle, first, later⟩ := credited
      obtain ⟨e, found, rfl⟩ := Option.map_eq_some_iff.mp first
      obtain ⟨rfl, _⟩ := OutEdges.edge_eq_some found
      rw [ih later]
      by_cases same : value.1 = action
      · subst same
        simp only [Int.toNat_natCast, Function.update_self, List.filter_cons_of_pos, decide_true,
          List.map_cons, List.sum_cons]
        ring
      · have other : ((ack.vertex, action.toNat) : Nat × Nat) ≠ (ack.vertex, value.1.toNat) := by
          intro equal
          exact same (UInt16.toNat_inj.mp (Prod.mk.inj equal).2.symm)
        simp only [Int.toNat_natCast, Function.update_of_ne other, List.filter_cons, same,
          decide_false, Bool.false_eq_true, if_false]

theorem creditAll_other {values : Values} {before after : Nat × Nat → ℚ}
    (credited : creditAll out ack.vertex ack.origin ack.reward values before = some after) {edge : Nat × Nat}
    (other : edge.1 ≠ ack.vertex) : after edge = before edge := by
  induction values generalizing before with
  | nil =>
      obtain rfl := Option.some.inj credited
      rfl
  | cons value rest ih =>
      rw [creditAll, List.foldlM_cons, Option.bind_eq_bind, Option.bind_eq_some_iff] at credited
      obtain ⟨middle, first, later⟩ := credited
      obtain ⟨e, found, rfl⟩ := Option.map_eq_some_iff.mp first
      obtain ⟨rfl, _⟩ := OutEdges.edge_eq_some found
      rw [ih later, Function.update_of_ne]
      rintro rfl
      exact other rfl

theorem regret_cases {state next : Regret}
    (done : regret sorting out ack.vertex ack.origin ack.reward state (answers out ack) =
      some next) :
    creditAll out ack.vertex ack.origin ack.reward (answers out ack) state.totalReward =
        some next.totalReward ∧
      next.regretTotal ack.vertex =
        next.totalReward (ack.vertex, (front sorting (answers out ack)).toNat) -
          next.actualReward ack.vertex := by
  unfold regret at done
  simp only [Option.bind_eq_bind, Option.bind_eq_some_iff] at done
  obtain ⟨totalReward, credited, e, found, same⟩ := done
  obtain rfl := Option.some.inj same
  obtain ⟨rfl, _⟩ := OutEdges.edge_eq_some found
  exact ⟨credited, by simp⟩

def Totalled (out : OutEdges graph) (acks : List Acknowledgement) (state : Regret) : Prop :=
  ∀ vertex, (out.targets vertex).length > 1 → ∀ action : UInt16,
    state.totalReward (vertex, action.toNat) = credited out vertex action acks

theorem credited_append (vertex : Nat) (action : UInt16) (acks : List Acknowledgement)
    (ack : Acknowledgement) :
    credited out vertex action (acks ++ [ack]) = credited out vertex action acks +
      if ack.vertex = vertex then share out ack action else 0 := by
  by_cases here : ack.vertex = vertex <;> simp [credited, ofVertex, here]

theorem Totalled.step {acks : List Acknowledgement} {state next : Regret}
    (totalled : Totalled out acks state)
    (stepped : regretStep sorting out state ack = some next) :
    Totalled out (acks ++ [ack]) next := by
  intro vertex choice action
  rw [credited_append]
  unfold regretStep at stepped
  split at stepped
  · obtain ⟨credited, _⟩ := regret_cases stepped
    by_cases here : ack.vertex = vertex
    · subst here
      rw [creditAll_eq credited, totalled _ choice, if_pos rfl]
      rfl
    · rw [creditAll_other credited (Ne.symm here), totalled _ choice, if_neg here, add_zero]
  · rename_i none
    obtain rfl := Option.some.inj stepped
    have other : ack.vertex ≠ vertex := by
      rintro rfl
      exact none choice
    rw [totalled _ choice, if_neg other, add_zero]

theorem run_totalled {acks : List Acknowledgement} {final : Regret}
    (ran : Runs.run (regretStep sorting out) Regret.fresh acks = some final) :
    Totalled out acks final := by
  refine Runs.run_induction (motive := fun acks state => Totalled out acks state) ?_ ?_ ran
  · exact fun _ _ _ => rfl
  · exact fun _ _ _ _ _ totalled stepped => totalled.step stepped

/-! With at most 65536 vertices an action stands for one target. -/

theorem share_eq {target : Nat} (small : ∀ other ∈ out.targets ack.vertex, other < 65536)
    (member : target ∈ out.targets ack.vertex) :
    share out ack (UInt16.ofNat target) =
      if ack.origin = (target : Int) then ack.reward else ack.prediction target := by
  have bound := small target member
  have chosen : (out.targets ack.vertex).filter
      (fun other => UInt16.ofNat other = UInt16.ofNat target) = [target] := by
    rw [List.filter_congr (q := fun other => other == target) fun other inside => ?_]
    · rw [List.filter_beq, List.count_eq_one_of_mem (out.distinct _) member]
      rfl
    · have size := small other inside
      rw [Bool.eq_iff_iff, decide_eq_true_iff, beq_iff_eq]
      constructor
      · intro same
        have values := congrArg UInt16.toNat same
        rwa [UInt16.toNat_ofNat_of_lt' size, UInt16.toNat_ofNat_of_lt' bound] at values
      · rintro rfl
        rfl
  rw [share, answers, List.filter_map, List.map_map]
  simp only [Function.comp_def, chosen, List.map_singleton, List.sum_singleton, credit,
    UInt16.toNat_ofNat_of_lt' bound]

theorem credited_eq_total {vertex target : Nat} (small : ∀ other ∈ out.targets vertex, other < 65536)
    (member : target ∈ out.targets vertex) (acks : List Acknowledgement) :
    credited out vertex (UInt16.ofNat target) acks = total vertex target acks := by
  rw [credited, total]
  congr 1
  refine List.map_congr_left fun ack inside => ?_
  obtain rfl : ack.vertex = vertex := by
    simpa using (List.mem_filter.mp inside).2
  exact share_eq small member

theorem front_mem (sorting : Sorting) (some_target : out.targets ack.vertex ≠ []) :
    ∃ target ∈ out.targets ack.vertex, front sorting (answers out ack) = UInt16.ofNat target := by
  have perm := sorting.sort_perm (answers out ack)
  cases sorted : sorting.sort (answers out ack) with
  | nil =>
      rw [sorted] at perm
      simp [answers, some_target] at perm
  | cons first rest =>
      have member : first ∈ answers out ack := perm.mem_iff.mp (sorted ▸ List.mem_cons_self)
      obtain ⟨target, inside, rfl⟩ := List.mem_map.mp member
      exact ⟨target, inside, by rw [front, sorted]; rfl⟩

/-- After an acknowledgement of a vertex with a choice the regret is measured against the best
action exactly when the one with the greatest prediction has also been credited the most. With
at most 65536 vertices, when no action is worth more in total than that one. -/
theorem run_regret_iff {acks : List Acknowledgement} {final : Regret}
    (ran : Runs.run (regretStep sorting out) Regret.fresh (acks ++ [ack]) = some final)
    (choice : (out.targets ack.vertex).length > 1) :
    let vertex := ack.vertex
    let best := front sorting (answers out ack)
    let totals := {sum | ∃ target ∈ out.targets vertex, total vertex target (acks ++ [ack]) = sum}
    let measured := ∃ sum, IsGreatest totals sum ∧
      final.regretTotal vertex = sum - final.actualReward vertex
    (measured ↔ IsGreatest totals (credited out vertex best (acks ++ [ack]))) ∧
      ((∀ target ∈ out.targets vertex, target < 65536) →
        (measured ↔ ∀ target ∈ out.targets vertex, total vertex target (acks ++ [ack]) ≤
          total vertex best.toNat (acks ++ [ack]))) := by
  intro vertex best totals measured
  have totalled := run_totalled ran
  rw [Runs.run_append, Option.bind_eq_some_iff] at ran
  obtain ⟨before, _, last⟩ := ran
  rw [Runs.run_cons, Option.bind_eq_some_iff] at last
  obtain ⟨next, stepped, same⟩ := last
  obtain rfl := Option.some.inj same
  rw [regretStep, if_pos choice] at stepped
  have regret : next.regretTotal vertex =
      credited out vertex best (acks ++ [ack]) - next.actualReward vertex := by
    rw [(regret_cases stepped).2, totalled vertex choice]
  have exactly : measured ↔ IsGreatest totals (credited out vertex best (acks ++ [ack])) := by
    constructor
    · rintro ⟨sum, greatest, equal⟩
      rw [regret, sub_left_inj] at equal
      exact equal ▸ greatest
    · exact fun greatest => ⟨_, greatest, regret⟩
  refine ⟨exactly, fun small => ?_⟩
  have some_target : out.targets vertex ≠ [] := by
    intro none
    rw [none] at choice
    simp at choice
  obtain ⟨target, member, front⟩ := front_mem sorting some_target
  have worth : credited out vertex best (acks ++ [ack]) =
      total vertex best.toNat (acks ++ [ack]) := by
    simp only [best, front, UInt16.toNat_ofNat_of_lt' (small target member)]
    exact credited_eq_total small member _
  rw [exactly, worth]
  constructor
  · rintro ⟨_, upper⟩ other inside
    exact upper ⟨other, inside, rfl⟩
  · intro bounded
    refine ⟨⟨target, member, ?_⟩, ?_⟩
    · simp only [best, front, UInt16.toNat_ofNat_of_lt' (small target member)]
    · rintro sum ⟨other, inside, rfl⟩
      exact bounded other inside

/-! A vertex with two out-edges. -/

def choiceGraph : Graph where
  size := 3
  edges := [(0, 2), (0, 1)]
  inside := by decide

def choiceOut : OutEdges choiceGraph where
  targets source := if source = 0 then [2, 1] else []
  mem_targets source target := by
    by_cases root : source = 0 <;> simp [choiceGraph, root]
  distinct source := by split <;> decide

def disappointed : Acknowledgement where
  vertex := 0
  origin := 1
  reward := -1
  prediction := fun target => if target = 1 then 10 else 0

theorem disappointed_regret :
    ∃ final, Runs.run (regretStep insertionSorting choiceOut) Regret.fresh ([] ++ [disappointed]) =
        some final ∧
      final.regretTotal 0 = 0 ∧ final.actualReward 0 = -1 ∧
      total 0 1 [disappointed] = -1 ∧ total 0 2 [disappointed] = 0 := by
  have checked : ∃ final ∈ Runs.run (regretStep insertionSorting choiceOut) Regret.fresh
      ([] ++ [disappointed]), final.regretTotal 0 = 0 ∧ final.actualReward 0 = -1 ∧
        total 0 1 [disappointed] = -1 ∧ total 0 2 [disappointed] = 0 := by
    decide +kernel
  obtain ⟨final, ran, sums⟩ := checked
  exact ⟨final, ran, sums⟩

def reconsidered : Acknowledgement where
  vertex := 0
  origin := 1
  reward := -2
  prediction := fun target => if target = 1 then -5 else 3

theorem run_regret_iff_disappointed :
    ∃ final, Runs.run (regretStep insertionSorting choiceOut) Regret.fresh
        ([disappointed] ++ [reconsidered]) = some final ∧
      ((∃ sum, IsGreatest {sum | ∃ target ∈ choiceOut.targets 0,
            total 0 target [disappointed, reconsidered] = sum} sum ∧
          final.regretTotal 0 = sum - final.actualReward 0) ↔
        IsGreatest {sum | ∃ target ∈ choiceOut.targets 0,
            total 0 target [disappointed, reconsidered] = sum}
          (credited choiceOut 0 (front insertionSorting (answers choiceOut reconsidered))
            [disappointed, reconsidered])) := by
  have ends : (Runs.run (regretStep insertionSorting choiceOut) Regret.fresh
      ([disappointed] ++ [reconsidered])).isSome = true := by decide +kernel
  obtain ⟨final, ran⟩ := Option.isSome_iff_exists.mp ends
  exact ⟨final, ran, (run_regret_iff ran (by decide)).1⟩

theorem regret_not_against_best :
    ¬∀ (graph : Graph) (sorting : Sorting) (out : OutEdges graph) (acks : List Acknowledgement)
      (ack : Acknowledgement) (final : Regret),
      Runs.run (regretStep sorting out) Regret.fresh (acks ++ [ack]) = some final →
      (out.targets ack.vertex).length > 1 →
        ∃ sum, IsGreatest {sum | ∃ target ∈ out.targets ack.vertex,
            total ack.vertex target (acks ++ [ack]) = sum} sum ∧
          final.regretTotal ack.vertex = sum - final.actualReward ack.vertex := by
  intro always
  obtain ⟨final, ran, regret, actual, _, second⟩ := disappointed_regret
  obtain ⟨sum, ⟨_, upper⟩, measured⟩ :=
    always choiceGraph insertionSorting choiceOut [] disappointed final ran (by decide)
  have bound : 0 ≤ sum := upper ⟨2, by decide, second⟩
  change final.regretTotal 0 = sum - final.actualReward 0 at measured
  rw [regret, actual] at measured
  linarith

end FullRLResponseHandler

end RlAqs
