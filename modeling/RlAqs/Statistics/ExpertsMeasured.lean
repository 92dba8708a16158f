import RlAqs.Simulator.JobsRetrace
import RlAqs.Simulator.HistoryPast
import RlAqs.Simulator.PathsLinked
import RlAqs.Statistics.ExpertsCore
import RlAqs.Statistics.RewardsMean
import RlAqs.Statistics.StatisticsAgree

/-!
What the expert metrics come to in a run without learning. They are sums over the
acknowledgements of a vertex; what a reward is held against is the mean of the earlier ones over
the same edge, and zero at a vertex without edges.
-/

namespace RlAqs

open Handlers Processor

def Record.reward (record : Record) : ℚ := record.entry.getReward.getD 0

def edgeRewards (edge : Nat × Nat) (answers : List Record) : List ℚ :=
  (answers.filter fun record => record.entry.origin = (edge.2 : Int)).map Record.reward

def estimate (qVal : Nat × Nat → ℚ) (edge : Nat × Nat) (answers : List Record) : ℚ :=
  if edgeRewards edge answers = [] then qVal edge else Welford.mean (edgeRewards edge answers)

def expected (graph : Graph) (qVal : Nat × Nat → ℚ) (earlier : List Record) (record : Record) : ℚ :=
  if 0 < graph.outDegree record.entry.destination then
    estimate qVal (record.entry.destination.toNat, record.entry.origin.toNat) earlier
  else 0

def surprises (graph : Graph) (qVal : Nat × Nat → ℚ) : List Record → List ℚ
  | [] => []
  | record :: earlier =>
      (record.reward - expected graph qVal earlier record) :: surprises graph qVal earlier

/-! One handler. -/

section handlers

variable {graph : Graph} {qVal : Nat × Nat → Option ℚ} {expert : Expert} {entry : Entry}
  {reward q : ℚ}

theorem expertPositiveHandler_eq (given : entry.getReward = some reward)
    (found : qval graph qVal expert entry = some (some q)) :
    expertPositiveHandler graph qVal expert entry =
      some { expert with positive := expert.positive + max (reward - q) 0 } := by
  simp only [expertPositiveHandler, given, found, Option.bind_eq_bind, Option.bind_some,
    Option.pure_def, gt_iff_lt]
  split
  · rename_i better
    rw [max_eq_left (by linarith)]
  · rename_i worse
    rw [max_eq_right (by linarith), add_zero]

theorem expertNegativeHandler_eq (given : entry.getReward = some reward)
    (found : qval graph qVal expert entry = some (some q)) :
    expertNegativeHandler graph qVal expert entry =
      some { expert with negative := expert.negative + max (-(reward - q)) 0 } := by
  simp only [expertNegativeHandler, given, found, Option.bind_eq_bind, Option.bind_some,
    Option.pure_def]
  split
  · rename_i worse
    rw [max_eq_left (by linarith), neg_sub]
  · rename_i better
    rw [max_eq_right (by linarith), add_zero]

end handlers

theorem edge_of_hasEdge {graph : Graph} {source target : Int} (edge : graph.HasEdge source target) :
    (source.toNat, target.toNat) ∈ graph.edges ∧ graph.edge source target =
      some (source.toNat, target.toNat) := by
  refine ⟨?_, if_pos edge⟩
  obtain ⟨pair, member, rfl, rfl⟩ := edge
  simpa using member

theorem outDegree_pos {graph : Graph} {edge : Nat × Nat} (member : edge ∈ graph.edges) :
    0 < graph.outDegree edge.1 :=
  List.countP_pos_iff.mpr ⟨edge, member, by simp⟩

/-! The Q-value of one edge. -/

structure Estimated (rewards : List ℚ) (initial : ℚ) (stats : OnlineStats) (qVal : Option ℚ) :
    Prop where
  empty : rewards = [] → stats.n = 0 ∧ qVal = some initial
  holds : rewards ≠ [] → stats.Holds rewards.reverse ∧ qVal = some (Welford.mean rewards)

theorem mean_reverse (values : List ℚ) : Welford.mean values.reverse = Welford.mean values := by
  simp [Welford.mean]

theorem Estimated.push {rewards : List ℚ} {initial : ℚ} {stats : OnlineStats} {qVal : Option ℚ}
    (estimated : Estimated rewards initial stats qVal) (few : rewards.length + 1 < 2 ^ 32) (x : ℚ) :
    Estimated (x :: rewards) initial (stats.push x) (stats.push x).mean := by
  have pushed : (stats.push x).Holds (x :: rewards).reverse := by
    rw [List.reverse_cons]
    by_cases first : rewards = []
    · rw [first]
      exact OnlineStats.push_first (estimated.empty first).1 x
    · exact (estimated.holds first).1.push (by simpa using first)
        (by rwa [List.length_reverse]) x
  refine ⟨fun none => absurd none (List.cons_ne_nil _ _), fun _ => ⟨pushed, ?_⟩⟩
  rw [pushed.mean_eq (by simp), mean_reverse]

theorem Estimated.qVal_eq {edge : Nat × Nat} {answers : List Record} {stats : OnlineStats}
    {initial : Nat × Nat → ℚ} {qVal : Option ℚ}
    (estimated : Estimated (edgeRewards edge answers) (initial edge) stats qVal) :
    qVal = some (estimate initial edge answers) := by
  unfold estimate
  split
  · rename_i none
    exact (estimated.empty none).2
  · rename_i some_reward
    exact (estimated.holds some_reward).2

section edgeRewards

variable {edge : Nat × Nat} {record : Record} {answers : List Record}

theorem edgeRewards_cons_same (same : record.entry.origin = (edge.2 : Int)) :
    edgeRewards edge (record :: answers) = record.reward :: edgeRewards edge answers := by
  simp [edgeRewards, same]

theorem edgeRewards_cons_other (other : record.entry.origin ≠ (edge.2 : Int)) :
    edgeRewards edge (record :: answers) = edgeRewards edge answers := by
  simp [edgeRewards, other]

theorem edgeRewards_length : (edgeRewards edge answers).length ≤ answers.length := by
  rw [edgeRewards, List.length_map]
  exact List.length_filter_le _ _

end edgeRewards

/-! All that is kept. -/

structure Measured (graph : Graph) (qVal : Nat × Nat → ℚ) (answers : List Record)
    (expert : Expert) : Prop where
  averaged : Averaged answers expert.stats
  nonpos : ∀ record ∈ answers, record.reward ≤ 0
  normal : expert.normal = (answers.map Record.reward).sum
  absolute : expert.absolute = -(answers.map Record.reward).sum
  positive : expert.positive = ((surprises graph qVal answers).map fun x => max x 0).sum
  negative : expert.negative = ((surprises graph qVal answers).map fun x => max (-x) 0).sum

structure Kept (graph : Graph) (index : Nat × Nat → Nat) (qVal : Nat × Nat → ℚ)
    (processed : List Record) (metrics : Metrics) : Prop where
  measured : ∀ vertex, Measured graph qVal (acks vertex processed) (metrics.experts vertex)
  estimated : ∀ edge ∈ graph.edges, ∃ stats, metrics.qStats[index edge % 65536]? = some stats ∧
    Estimated (edgeRewards edge (acks edge.1 processed)) (qVal edge) stats (metrics.qVal edge)

/-- An acknowledgement is one for the handlers to follow: it answers an earlier arrival, over an
edge where there is one. -/
structure Acked (graph : Graph) (record : Record) : Prop where
  type : record.entry.type = ackEvent ∨ record.entry.type = ack1hopEvent
  edge : 0 < graph.outDegree record.entry.destination →
    graph.HasEdge record.entry.destination record.entry.origin
  read : ∃ top, record.entry.topArrival = some top
  past : record.entry.Past

section kept

variable {graph : Graph} {index : Nat × Nat → Nat} {qVal : Nat × Nat → ℚ}
  {processed : List Record} {metrics : Metrics} {record : Record}

theorem Acked.getReward (acked : Acked graph record) :
    record.entry.getReward = some record.reward ∧ record.reward ≤ 0 ∧
      ∃ top, record.entry.topArrival = some top ∧ top - record.entry.arrival = record.reward := by
  obtain ⟨top, found⟩ := acked.read
  have past := acked.past top (List.mem_of_mem_head? found)
  have given : record.entry.getReward = some (top - record.entry.arrival) := by
    rw [Entry.getReward, found, Option.map_some]
    split
    · rfl
    · rw [show top - record.entry.arrival = 0 by linarith]
  have same : record.reward = top - record.entry.arrival := by
    rw [Record.reward, given, Option.getD_some]
  refine ⟨same ▸ given, ?_, top, found, same.symm⟩
  rw [same]
  linarith

theorem Kept.qval_eq (kept : Kept graph index qVal processed metrics) (acked : Acked graph record)
    (few : processed.length + 1 < 2 ^ 31) {stats : ResponseStats} {expert : Expert}
    (handled : responseStatsHandler (metrics.experts record.entry.destination).stats
      record.entry = some stats) (same : expert.stats = stats) :
    qval graph metrics.qVal expert record.entry =
      some (some (expected graph qVal (acks record.entry.destination processed) record)) := by
  have measured := kept.measured record.entry.destination
  unfold qval expected
  split
  · rename_i inner
    obtain ⟨member, edge⟩ := edge_of_hasEdge (acked.edge inner)
    have place : ((record.entry.destination.toNat : Nat) : Int) = record.entry.destination := by
      obtain ⟨pair, _, source, _⟩ := acked.edge inner
      omega
    obtain ⟨_, _, estimated⟩ := kept.estimated _ member
    rw [place] at estimated
    rw [edge, Option.map_some, estimated.qVal_eq]
  · rw [same]
    have fewer : (record :: acks record.entry.destination processed).length < 2 ^ 31 := by
      have length := List.length_filter_le
        (fun record' => decide (Record.IsAck record.entry.destination record')) processed
      rw [List.length_cons]
      unfold acks
      omega
    rw [(measured.averaged.ack acked.past handled).mean fewer]

theorem Measured.ack (measured : Measured graph qVal (acks record.entry.destination processed)
      (metrics.experts record.entry.destination))
    (acked : Acked graph record) {stats : ResponseStats}
    (handled : responseStatsHandler (metrics.experts record.entry.destination).stats
      record.entry = some stats) :
    let before := metrics.experts record.entry.destination
    let surprise := record.reward -
      expected graph qVal (acks record.entry.destination processed) record
    Measured graph qVal (record :: acks record.entry.destination processed)
      { stats := stats
        normal := before.normal + record.reward
        absolute := before.absolute + |record.reward|
        positive := before.positive + max surprise 0
        negative := before.negative + max (-surprise) 0 } := by
  obtain ⟨_, nonpos, _⟩ := acked.getReward
  intro before surprise
  constructor
  · exact measured.averaged.ack acked.past handled
  · exact List.forall_mem_cons.mpr ⟨nonpos, measured.nonpos⟩
  · rw [List.map_cons, List.sum_cons, ← measured.normal]
    exact add_comm _ _
  · rw [List.map_cons, List.sum_cons, neg_add, ← measured.absolute, ← abs_of_nonpos nonpos]
    exact add_comm _ _
  · rw [surprises, List.map_cons, List.sum_cons, ← measured.positive]
    exact add_comm _ _
  · rw [surprises, List.map_cons, List.sum_cons, ← measured.negative]
    exact add_comm _ _

theorem Kept.expert (kept : Kept graph index qVal processed metrics) (acked : Acked graph record)
    (few : processed.length + 1 < 2 ^ 31) :
    ∃ expert, Measured graph qVal (record :: acks record.entry.destination processed) expert ∧
      metrics.ack graph index record.entry = defaultResponseHandler graph index
        { metrics with
          experts := Function.update metrics.experts record.entry.destination expert }
        record.entry := by
  obtain ⟨given, _, top, found, _⟩ := acked.getReward
  obtain ⟨stats, handled⟩ : ∃ stats, responseStatsHandler
      (metrics.experts record.entry.destination).stats record.entry = some stats := by
    simp [responseStatsHandler, found]
  refine ⟨_, (kept.measured _).ack acked handled, ?_⟩
  simp only [Metrics.ack, handled, expertNormalHandler, expertAbsoluteHandler, given,
    Option.bind_eq_bind, Option.bind_some, Option.map_some]
  rw [expertPositiveHandler_eq given (kept.qval_eq acked few handled rfl), Option.bind_some,
    expertNegativeHandler_eq given (kept.qval_eq acked few handled rfl), Option.bind_some]

theorem Kept.update (kept : Kept graph index qVal processed metrics) (acked : Acked graph record)
    {expert : Expert}
    (measured : Measured graph qVal (record :: acks record.entry.destination processed) expert)
    (vertex : Int) :
    Measured graph qVal (acks vertex (record :: processed))
      (Function.update metrics.experts record.entry.destination expert vertex) := by
  by_cases here : record.entry.destination = vertex
  · subst here
    rw [acks_cons_ack ⟨acked.type, rfl⟩, Function.update_self]
    exact measured
  · rw [acks_cons_other fun ack => here ack.2, Function.update_of_ne (Ne.symm here)]
    exact kept.measured vertex

theorem Kept.ack (kept : Kept graph index qVal processed metrics) (acked : Acked graph record)
    (distinct : ∀ edge ∈ graph.edges, ∀ other ∈ graph.edges,
      index edge % 65536 = index other % 65536 → edge = other)
    (few : processed.length + 1 < 2 ^ 31) :
    ∃ after, metrics.ack graph index record.entry = some after ∧
      Kept graph index qVal (record :: processed) after := by
  obtain ⟨expert, measured, done⟩ := kept.expert acked few
  obtain ⟨_, _, top, found, roundTrip⟩ := acked.getReward
  rw [done, defaultResponseHandler]
  split
  · rename_i inner
    obtain ⟨member, edge⟩ := edge_of_hasEdge (acked.edge inner)
    set here := (record.entry.destination.toNat, record.entry.origin.toNat) with place
    have source : ((here.1 : Nat) : Int) = record.entry.destination := by
      obtain ⟨pair, _, source, _⟩ := acked.edge inner
      simp only [place]
      omega
    have target : ((here.2 : Nat) : Int) = record.entry.origin := by
      obtain ⟨pair, _, _, target⟩ := acked.edge inner
      simp only [place]
      omega
    obtain ⟨stats, kept_stats, estimated⟩ := kept.estimated here member
    simp only [found, edge, kept_stats, Option.bind_eq_bind, Option.bind_some, Option.pure_def,
      roundTrip]
    refine ⟨_, rfl, kept.update acked measured, fun other listed => ?_⟩
    dsimp only
    by_cases same : other = here
    · subst same
      obtain ⟨inside, _⟩ := Array.getElem?_eq_some_iff.mp kept_stats
      refine ⟨_, Array.getElem?_setIfInBounds_self_of_lt inside, ?_⟩
      rw [Function.update_self, source, acks_cons_ack ⟨acked.type, rfl⟩,
        edgeRewards_cons_same target.symm, ← source]
      refine estimated.push ?_ _
      have length := List.length_filter_le
        (fun record => decide (Record.IsAck here.1 record)) processed
      have fewer := @edgeRewards_length here (acks here.1 processed)
      unfold acks at fewer ⊢
      omega
    · have apart : index other % 65536 ≠ index here % 65536 :=
        fun equal => same (distinct other listed here member equal)
      rw [Array.getElem?_setIfInBounds_ne apart.symm, Function.update_of_ne same]
      by_cases out : record.entry.destination = other.1
      · have elsewhere : record.entry.origin ≠ (other.2 : Int) := by
          intro equal
          refine same (Prod.ext ?_ ?_) <;> omega
        rw [acks_cons_ack ⟨acked.type, out⟩, edgeRewards_cons_other elsewhere]
        exact kept.estimated other listed
      · rw [acks_cons_other fun ack => out ack.2]
        exact kept.estimated other listed
  · rename_i sink
    refine ⟨_, rfl, kept.update acked measured, fun other listed => ?_⟩
    have out : record.entry.destination ≠ other.1 := by
      intro equal
      rw [equal] at sink
      exact sink (outDegree_pos listed)
    rw [acks_cons_other fun ack => out ack.2]
    exact kept.estimated other listed

theorem Kept.other (kept : Kept graph index qVal processed metrics)
    (type : ¬(record.entry.type = ackEvent ∨ record.entry.type = ack1hopEvent)) :
    Kept graph index qVal (record :: processed) metrics := by
  constructor
  · intro vertex
    rw [acks_cons_other fun ack => type ack.1]
    exact kept.measured vertex
  · intro edge listed
    rw [acks_cons_other fun ack => type ack.1]
    exact kept.estimated edge listed

theorem start_kept (qVal : Nat × Nat → ℚ)
    (inside : ∀ edge ∈ graph.edges, index edge % 65536 < graph.edges.length) :
    Kept graph index qVal [] (Metrics.start graph qVal) where
  measured _ :=
    { averaged := fresh_averaged
      nonpos := by simp [acks]
      normal := rfl
      absolute := rfl
      positive := rfl
      negative := rfl }
  estimated edge listed := ⟨OnlineStats.fresh, by simp [Metrics.start, inside edge listed],
    fun _ => ⟨rfl, rfl⟩, fun some_reward => absurd rfl some_reward⟩

end kept

/-! A turn. -/

variable {graph : Graph} {config : Config} {index : Nat × Nat → Nat} {qVal : Nat × Nat → ℚ}
  {processor after : Processor} {choice : Choice} {metrics : Metrics}

theorem acked_of_ack (stepped : Processor.step graph config processor choice = some after)
    (inHand : processor.take choice.entry = choice.entry)
    (onPath : OnPath graph choice.entry) (past : choice.entry.Past) {pushed : List Entry}
    (going : ¬((processor.take choice.entry).origin = adminEvent ∨ after.stopped ∨
      after.undefined))
    (type : (processor.take choice.entry).type = ackEvent ∨
      (processor.take choice.entry).type = ack1hopEvent) :
    Acked graph ⟨processor.take choice.entry, choice.serviceTime, pushed⟩ := by
  obtain ⟨top, found⟩ := top_of_ack stepped going type
  rw [inHand] at type found ⊢
  exact ⟨type, onPath.answered type, ⟨top, found⟩, past⟩

theorem metrics_step (kept : Kept graph index qVal processor.processed metrics)
    (distinct : ∀ edge ∈ graph.edges, ∀ other ∈ graph.edges,
      index edge % 65536 = index other % 65536 → edge = other)
    (inHand : processor.take choice.entry = choice.entry) (onPath : OnPath graph choice.entry)
    (past : choice.entry.Past)
    (stepped : Processor.step graph config processor choice = some after)
    (few : after.processed.length < 2 ^ 31) :
    ∃ next, Metrics.step graph config index (processor, metrics) choice = some (after, next) ∧
      Kept graph index qVal after.processed next := by
  simp only [Metrics.step, stepped, Option.bind_some, Metrics.turn]
  rcases processed_cases stepped with ⟨pushed, processed, going⟩ | ⟨processed, left⟩
  · rw [if_neg going]
    rw [processed] at few ⊢
    split
    · rename_i type
      obtain ⟨next, done, still⟩ :=
        kept.ack (acked_of_ack stepped inHand onPath past going type) distinct few
      rw [done]
      exact ⟨next, rfl, still⟩
    · rename_i type
      exact ⟨metrics, rfl, kept.other type⟩
  · rw [if_pos left]
    exact ⟨metrics, rfl, processed ▸ kept⟩

theorem run_kept (begun : 0 ≤ config.stopTime)
    (distinct : ∀ edge ∈ graph.edges, ∀ other ∈ graph.edges,
      index edge % 65536 = index other % 65536 → edge = other)
    (inside : ∀ edge ∈ graph.edges, index edge % 65536 < graph.edges.length)
    {choices : List Choice} {final : Processor}
    (routed : Runs.Along (Processor.step graph config) (Routed graph) (Processor.start config)
      choices)
    (ran : Runs.run (Processor.step graph config) (Processor.start config) choices = some final)
    (few : final.processed.length < 2 ^ 31) :
    ∃ metrics, Runs.run (Metrics.step graph config index)
        (Processor.start config, Metrics.start graph qVal) choices = some (final, metrics) ∧
      Kept graph index qVal final.processed metrics := by
  have grows {processor after : Processor} {choice : Choice}
      (stepped : Processor.step graph config processor choice = some after) :
      processor.processed.length ≤ after.processed.length := by
    rcases processed_cases stepped with ⟨pushed, processed, _⟩ | ⟨processed, _⟩ <;>
      simp [processed]
  refine Runs.run_induction (motive := fun choices final =>
    Runs.Along (Processor.step graph config) (Routed graph) (Processor.start config) choices →
      final.processed.length < 2 ^ 31 →
        ∃ metrics, Runs.run (Metrics.step graph config index)
            (Processor.start config, Metrics.start graph qVal) choices = some (final, metrics) ∧
          Kept graph index qVal final.processed metrics) ?_ ?_ ran routed few
  · exact fun _ _ => ⟨_, rfl, start_kept qVal inside⟩
  · intro choices before choice after earlier ih stepped routed few
    have routed := ((Runs.along_concat earlier).mp routed).1
    obtain ⟨metrics, followed, kept⟩ := ih routed ((grows stepped).trans_lt few)
    have member := (step_cases stepped).1.member
    have inHand := take_eq (((run_consistent earlier).timed begun).future _ member)
    obtain ⟨next, step, still⟩ := metrics_step kept distinct inHand
      (run_onPath begun routed earlier _ member) ((run_past earlier).1 _ member) stepped few
    exact ⟨next, Runs.run_concat followed step, still⟩

theorem surprises_sink {vertex : Int} (sink : graph.outDegree vertex = 0) {answers : List Record}
    (here : ∀ record ∈ answers, record.entry.destination = vertex) :
    surprises graph qVal answers = answers.map Record.reward := by
  induction answers with
  | nil => rfl
  | cons record earlier ih =>
      obtain ⟨place, others⟩ := List.forall_mem_cons.mp here
      have unexpected : expected graph qVal earlier record = 0 := by
        rw [expected, place, if_neg (by omega)]
      rw [surprises, unexpected, sub_zero, ih others, List.map_cons]

/-- In every run without learning the expert metrics of a vertex are sums over the
acknowledgements it has processed: of the rewards, of their sizes, and of how far each reward is
above or below the mean of the earlier ones over the same edge, which is what the Q-value is. -/
theorem run_experts (begun : 0 ≤ config.stopTime)
    (distinct : ∀ edge ∈ graph.edges, ∀ other ∈ graph.edges,
      index edge % 65536 = index other % 65536 → edge = other)
    (inside : ∀ edge ∈ graph.edges, index edge % 65536 < graph.edges.length)
    {choices : List Choice} {final : Processor}
    (routed : Runs.Along (Processor.step graph config) (Routed graph) (Processor.start config)
      choices)
    (ran : Runs.run (Processor.step graph config) (Processor.start config) choices = some final)
    (few : final.processed.length < 2 ^ 31) :
    ∃ metrics, Runs.run (Metrics.step graph config index)
        (Processor.start config, Metrics.start graph qVal) choices = some (final, metrics) ∧
      (∀ vertex, let answers := acks vertex final.processed
        let expert := metrics.experts vertex
        expert.normal = (answers.map Record.reward).sum ∧
          expert.absolute = -expert.normal ∧
          expert.positive = ((surprises graph qVal answers).map fun x => max x 0).sum ∧
          expert.negative = ((surprises graph qVal answers).map fun x => max (-x) 0).sum ∧
          (graph.outDegree vertex = 0 →
            expert.positive = 0 ∧ expert.negative = expert.absolute)) ∧
      ∀ edge ∈ graph.edges,
        metrics.qVal edge = some (estimate qVal edge (acks edge.1 final.processed)) := by
  obtain ⟨metrics, followed, kept⟩ := run_kept begun distinct inside routed ran few
  refine ⟨metrics, followed, fun vertex => ?_, fun edge listed => ?_⟩
  case refine_2 =>
    obtain ⟨_, _, estimated⟩ := kept.estimated edge listed
    exact estimated.qVal_eq
  have measured := kept.measured vertex
  refine ⟨measured.normal, by rw [measured.absolute, measured.normal], measured.positive,
    measured.negative, fun sink => ?_⟩
  have same := @surprises_sink graph qVal vertex sink (acks vertex final.processed)
    fun record member => (of_decide_eq_true (List.mem_filter.mp member).2).2
  rw [measured.positive, measured.negative, measured.absolute, same, List.map_map, List.map_map]
  constructor
  · refine List.sum_eq_zero fun x member => ?_
    obtain ⟨record, inside, rfl⟩ := List.mem_map.mp member
    exact max_eq_right (measured.nonpos record inside)
  · rw [List.sum_neg, List.map_map]
    refine congrArg List.sum (List.map_congr_left fun record inside => ?_)
    exact max_eq_left (neg_nonneg.mpr (measured.nonpos record inside))

theorem run_experts_roundTrip :
    ∃ final metrics,
      Runs.run (Processor.step line { stopTime := 10 }) (Processor.start { stopTime := 10 })
        roundTrip = some final ∧
      Runs.run (Metrics.step line { stopTime := 10 } fun _ => 0)
        (Processor.start { stopTime := 10 }, Metrics.start line fun _ => 0) roundTrip =
          some (final, metrics) ∧
      (metrics.experts 1).positive = 0 ∧
      (metrics.experts 1).negative = (metrics.experts 1).absolute ∧
      metrics.qVal (0, 1) = some (estimate (fun _ => 0) (0, 1) (acks 0 final.processed)) := by
  have checked : ∃ final ∈ Runs.run (Processor.step line { stopTime := 10 })
      (Processor.start { stopTime := 10 }) roundTrip, final.processed.length < 2 ^ 31 := by
    decide +kernel
  obtain ⟨final, ran, few⟩ := checked
  have distinct : ∀ edge ∈ line.edges, ∀ other ∈ line.edges,
      (fun _ : Nat × Nat => 0) edge % 65536 = (fun _ => 0) other % 65536 → edge = other := by
    decide
  obtain ⟨metrics, followed, sums, values⟩ := run_experts (by decide) distinct (by decide)
    (Runs.along_of_check (by decide +kernel)) ran few
  obtain ⟨_, _, _, _, sink⟩ := sums 1
  obtain ⟨positive, negative⟩ := sink (by decide)
  exact ⟨final, metrics, ran, followed, positive, negative, values (0, 1) (by decide)⟩

end RlAqs
