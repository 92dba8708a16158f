import RlAqs.Campaign.CampaignSafe
import RlAqs.Campaign.TallySequential
import Mathlib.Data.List.GetD

/-!
The lines that the master writes: whatever the order of the answers, the line of an experiment is
written once, over exactly the replications that were issued for it, when these suffice.
-/

namespace RlAqs

namespace Master

variable {master next : Master} {source index : Nat} {isConfident : Bool} {sent : List Job}

structure Entered (master next : Master) (index : Nat) (isConfident : Bool) : Prop where
  length : next.experiments.length = master.experiments.length
  numValues : (next.experiment index).numValues = (master.experiment index).numValues + 1
  isSignificant : (next.experiment index).isSignificant =
    if (master.experiment index).numValues + 1 ≥ (master.experiment index).simReplications ∧
      isConfident = true then true else (master.experiment index).isSignificant
  others : ∀ query ≠ index, next.experiment query = master.experiment query

theorem reallocate_experiments {experiment : Experiment}
    (reallocated : master.reallocate index experiment = .ok (next, sent)) :
    ∃ more total, next.experiments = master.experiments.set index
      { experiment with simActiveReplications := more, simReplications := total } := by
  simp only [reallocate, bind, Except.bind] at reallocated
  split at reallocated
  · cases reallocated
  split at reallocated
  · cases reallocated
  have same := Except.ok.inj reallocated
  rw [← (Prod.mk.inj same).1]
  exact ⟨_, _, rfl⟩

theorem retire_experiments {experiment : Experiment}
    (retired : master.retire index experiment = .ok (next, sent)) :
    next.experiments = master.experiments.set index { experiment with isSignificant := true } := by
  simp only [retire, bind, Except.bind] at retired
  split at retired
  · cases retired
  have same := Except.ok.inj retired
  rw [← (Prod.mk.inj same).1]

theorem entered_of_set {result : Experiment} (bound : index < master.experiments.length)
    (set : next.experiments = (master.answered source index).experiments.set index result)
    (numValues : result.numValues = (master.experiment index).numValues + 1)
    (isSignificant : result.isSignificant =
      if (master.experiment index).numValues + 1 ≥ (master.experiment index).simReplications ∧
        isConfident = true then true else (master.experiment index).isSignificant) :
    Entered master next index isConfident := by
  have bound' : index < (master.answered source index).experiments.length := by
    rwa [answered_length]
  have own : next.experiment index = result := by
    rw [experiment, set]
    exact experiment_set_self _ result bound'
  refine ⟨by rw [set, List.length_set, answered_length], by rw [own, numValues],
    by rw [own, isSignificant], fun query different => ?_⟩
  rw [experiment, set, experiment_set_of_ne _ result different, answered_experiment_of_ne different]

theorem receive_entered (bound : index < master.experiments.length)
    (received : master.receive source (index + 1) isConfident = .ok (next, sent)) :
    Entered master next index isConfident := by
  rw [receive_eq bound] at received
  have own := @answered_experiment_self master source index bound
  split at received
  · rename_i complete
    split at received
    · rename_i confident
      refine entered_of_set bound (retire_experiments received) (by rw [own]) ?_
      rw [if_pos ⟨complete, confident⟩]
    · rename_i unsure
      obtain ⟨more, total, set⟩ := reallocate_experiments received
      refine entered_of_set bound set (by rw [own]) ?_
      rw [own, if_neg fun both => unsure both.2]
  · rename_i waiting
    have same := Except.ok.inj received
    rw [← (Prod.mk.inj same).1]
    refine ⟨answered_length, by rw [own], ?_, fun query different =>
      answered_experiment_of_ne different⟩
    rw [own, if_neg fun both => waiting both.1]

end Master

namespace TalliedCampaign

open Master (outstanding)
open Outcome (Precise)

variable {settings : CampaignSettings} {workers count : Nat} {tallied next : TalliedCampaign}
  {answer : Answer}

theorem getD_modify_self {α : Type*} {list : List α} {index : Nat} (change : α → α) (default : α)
    (bound : index < list.length) :
    (list.modify index change).getD index default = change (list.getD index default) := by
  simp [List.getD_eq_getElem?_getD, bound]

theorem getD_modify_of_ne {α : Type*} {list : List α} {index query : Nat} (change : α → α)
    (default : α) (different : query ≠ index) :
    (list.modify index change).getD query default = list.getD query default := by
  simp [List.getD_eq_getElem?_getD, different.symm]

theorem getD_set_self {α : Type*} {list : List α} {index : Nat} (item default : α)
    (bound : index < list.length) : (list.set index item).getD index default = item := by
  simp [List.getD_eq_getElem?_getD, bound]

theorem getD_set_of_ne {α : Type*} {list : List α} {index query : Nat} (item default : α)
    (different : query ≠ index) :
    (list.set index item).getD query default = list.getD query default := by
  rw [List.getD_eq_getElem?_getD, List.getD_eq_getElem?_getD, List.getElem?_set_ne different.symm]

def received (tallied : TalliedCampaign) (index : Nat) : List Outcome :=
  (tallied.rows.getD index []).map Prod.snd

structure Recorded (settings : CampaignSettings) (tallied : TalliedCampaign) (index : Nat) :
    Prop where
  tally : tallied.tallies.getD index Tally.fresh = Tally.fresh.pushAll (tallied.received index)
  count : (tallied.received index).length =
    (tallied.campaign.master.experiment index).numValues
  rows : tallied.rows.getD index [] =
    (tallied.received index).mapIdx fun index outcome => ((index : Int) + 1, outcome)
  lines : tallied.lines.getD index [] =
    if (tallied.campaign.master.experiment index).isSignificant then
      [Outcome.summary (tallied.received index)] else []
  sufficient : (tallied.campaign.master.experiment index).isSignificant = true →
    settings.replications ≤ (tallied.received index).length ∧
      Precise settings.precision (tallied.received index)

def issued (tallied : TalliedCampaign) (index : Nat) : Nat :=
  tallied.campaign.issued.countP fun pair => pair.1 = index + 1

structure Reported (settings : CampaignSettings) (workers count : Nat)
    (tallied : TalliedCampaign) : Prop where
  safe : tallied.campaign.Safe workers
  tallies : tallied.tallies.length = tallied.campaign.master.experiments.length
  lines : tallied.lines.length = tallied.campaign.master.experiments.length
  rows : tallied.rows.length = tallied.campaign.master.experiments.length
  recorded : ∀ index < tallied.campaign.master.experiments.length,
    Recorded settings tallied index
  issued : ∀ index < tallied.campaign.master.experiments.length,
    tallied.issued index = (tallied.campaign.master.experiment index).numValues +
      outstanding tallied.campaign.inFlight index
  few : ∀ index, (tallied.received index).length ≤ count

structure Round (settings : CampaignSettings) (tallied : TalliedCampaign) (answer : Answer)
    (index : Nat) (next : TalliedCampaign) : Prop where
  bound : index < tallied.campaign.master.experiments.length
  unfinished : (tallied.campaign.master.experiment index).isSignificant = false
  entered : Master.Entered tallied.campaign.master next.campaign.master index
    (verdict settings ((tallied.tallies.getD index Tally.fresh).push answer.outcome))
  tallies : next.tallies = tallied.tallies.set index
    ((tallied.tallies.getD index Tally.fresh).push answer.outcome)
  lines : next.lines = if (next.campaign.master.experiment index).isSignificant then
    tallied.lines.modify index (· ++ [((tallied.tallies.getD index Tally.fresh).push
      answer.outcome).summary ((tallied.tallies.getD index Tally.fresh).push
        answer.outcome).getNumValues])
    else tallied.lines
  rows : next.rows = tallied.rows.modify index (· ++ [(((tallied.tallies.getD index
    Tally.fresh).push answer.outcome).getNumValues, answer.outcome)])
  balance : ∀ query, next.issued query + outstanding tallied.campaign.inFlight query =
    tallied.issued query + outstanding next.campaign.inFlight query +
      if query = index then 1 else 0

theorem countP_issued (sent : List Job) (index : Nat) :
    ((sent.map fun job => (job.simNum, job.repNum)).countP fun pair => pair.1 = index + 1) =
      outstanding sent index := by
  rw [List.countP_map, outstanding]
  rfl

theorem round_of_step (safe : tallied.campaign.Safe workers)
    (stepped : step settings tallied answer = some next) :
    ∃ index, Round settings tallied answer index next := by
  unfold step at stepped
  rw [Option.bind_eq_some_iff] at stepped
  obtain ⟨job, found, stepped⟩ := stepped
  rw [Option.map_eq_some_iff] at stepped
  obtain ⟨campaign, went, rfl⟩ := stepped
  have member := List.mem_of_find?_eq_some found
  have source : job.destination = answer.source := by simpa using List.find?_some found
  obtain ⟨index, bound, own⟩ := safe.balanced.known job member
  have position : job.simNum - 1 = index := by omega
  simp only [position] at went ⊢
  obtain ⟨master, sent, received, _⟩ := safe.balanced.receive safe.alive member
    (verdict settings ((tallied.tallies.getD index Tally.fresh).push answer.outcome))
  have unfinished := safe.balanced.unfinished member bound own
  have balance := Master.outstanding_erase member
  rw [source] at received
  simp only [Campaign.step, found, received] at went
  split at went
  · cases went
  have same := (Option.some.inj went).symm
  subst same
  rw [own] at received
  have entered := Master.receive_entered bound received
  refine ⟨index, bound, unfinished, entered, rfl, ?_, rfl, fun query => ?_⟩
  · rw [entered.isSignificant, unfinished]
    simp [Master.experiment]
  · have sentCount := countP_issued sent query
    simp only [issued, List.countP_append, Master.outstanding_append, sentCount]
    rw [balance query, own]
    have same : (index + 1 = query + 1) ↔ query = index := by omega
    simp only [same]
    omega

section round

variable {index query : Nat}

theorem Round.received_self (round : Round settings tallied answer index next)
    (rows : tallied.rows.length = tallied.campaign.master.experiments.length) :
    next.received index = tallied.received index ++ [answer.outcome] := by
  rw [received, round.rows, getD_modify_self _ _ (by rw [rows]; exact round.bound)]
  simp [received]

theorem Round.received_of_ne (round : Round settings tallied answer index next)
    (different : query ≠ index) : next.received query = tallied.received query := by
  rw [received, round.rows, getD_modify_of_ne _ _ different]
  rfl

theorem Round.recorded_of_ne (round : Round settings tallied answer index next)
    (different : query ≠ index) (recorded : Recorded settings tallied query) :
    Recorded settings next query := by
  have same := round.entered.others query different
  have outcomes := round.received_of_ne different
  refine ⟨?_, ?_, ?_, ?_, ?_⟩
  · rw [round.tallies, getD_set_of_ne _ _ different, outcomes, recorded.tally]
  · rw [outcomes, same, recorded.count]
  · rw [outcomes, round.rows, getD_modify_of_ne _ _ different, recorded.rows]
  · rw [outcomes, same, ← recorded.lines, round.lines]
    split
    · exact getD_modify_of_ne _ _ different
    · rfl
  · rw [outcomes, same]
    exact recorded.sufficient

theorem Round.recorded_self (round : Round settings tallied answer index next)
    (reported : Reported settings workers count tallied) (small : count + 1 < 2 ^ 31) :
    Recorded settings next index := by
  have recorded := reported.recorded index round.bound
  have bound := round.bound
  have few := reported.few index
  have outcomes := round.received_self reported.rows
  have tally : (tallied.tallies.getD index Tally.fresh).push answer.outcome =
      Tally.fresh.pushAll (next.received index) := by
    rw [outcomes, Tally.pushAll_concat, recorded.tally]
  have length : (next.received index).length = (tallied.received index).length + 1 := by
    rw [outcomes, List.length_append, List.length_singleton]
  have values : ((tallied.tallies.getD index Tally.fresh).push answer.outcome).getNumValues =
      (next.received index).length := by
    rw [tally, Tally.getNumValues_pushAll (by omega)]
  have significant := round.entered.isSignificant
  rw [round.unfinished] at significant
  have summary : ((tallied.tallies.getD index Tally.fresh).push answer.outcome).summary
      ((tallied.tallies.getD index Tally.fresh).push answer.outcome).getNumValues =
        Outcome.summary (next.received index) := by
    rw [values, tally, Tally.summary_pushAll _ (by omega)]
    rw [outcomes]
    simp
  refine ⟨?_, ?_, ?_, ?_, fun sufficient => ?_⟩
  · rw [round.tallies, getD_set_self _ _ (by rw [reported.tallies]; exact bound), tally]
  · rw [length, recorded.count, round.entered.numValues]
  · rw [round.rows, getD_modify_self _ _ (by rw [reported.rows]; exact bound), recorded.rows,
      values, length, outcomes, List.mapIdx_append]
    simp
  · rw [round.lines, summary]
    split
    · rw [getD_modify_self _ _ (by rw [reported.lines]; exact bound), recorded.lines,
        round.unfinished]
      rfl
    · rw [recorded.lines, round.unfinished]
      rfl
  · rw [sufficient] at significant
    split at significant
    · rename_i both
      have verdict := both.2
      rw [TalliedCampaign.verdict, values, tally, Bool.and_eq_true, decide_eq_true_eq,
        Tally.isConfident_pushAll (by omega)] at verdict
      exact ⟨by exact_mod_cast verdict.2, verdict.1⟩
    · cases significant

end round

theorem Reported.step (reported : Reported settings workers count tallied)
    (small : count + 1 < 2 ^ 31) (stepped : step settings tallied answer = some next) :
    Reported settings workers (count + 1) next := by
  obtain ⟨index, round⟩ := round_of_step reported.safe stepped
  have length := round.entered.length
  have safe : next.campaign.Safe workers := by
    unfold TalliedCampaign.step at stepped
    rw [Option.bind_eq_some_iff] at stepped
    obtain ⟨job, _, stepped⟩ := stepped
    rw [Option.map_eq_some_iff] at stepped
    obtain ⟨campaign, went, rfl⟩ := stepped
    exact reported.safe.step went
  refine ⟨safe, ?_, ?_, ?_, fun query inside => ?_, fun query inside => ?_, fun query => ?_⟩
  · rw [round.tallies, List.length_set, length, reported.tallies]
  · rw [length, ← reported.lines, round.lines]
    split
    · exact List.length_modify ..
    · rfl
  · rw [round.rows, List.length_modify, length, reported.rows]
  · rw [length] at inside
    by_cases same : query = index
    · rw [same]
      exact round.recorded_self reported small
    · exact round.recorded_of_ne same (reported.recorded query inside)
  · rw [length] at inside
    have balance := round.balance query
    have before := reported.issued query inside
    by_cases same : query = index
    · subst same
      rw [round.entered.numValues]
      rw [if_pos rfl] at balance
      omega
    · rw [round.entered.others query same]
      rw [if_neg same] at balance
      omega
  · by_cases same : query = index
    · rw [same, round.received_self reported.rows, List.length_append, List.length_singleton]
      exact Nat.succ_le_succ (reported.few index)
    · rw [round.received_of_ne same]
      exact (reported.few query).trans (Nat.le_succ _)

theorem start_reported {runs initReplications nodes : Nat} (someRuns : 1 ≤ runs)
    (someReplications : 1 ≤ initReplications) (enough : runs * initReplications + 1 ≤ nodes)
    (small : nodes < 65536) :
    Reported settings (nodes - 1) 0 (start runs initReplications nodes) ∧
      (start runs initReplications nodes).campaign.master.experiments.length = runs := by
  obtain ⟨length, untouched, _⟩ := Master.setup_spec initReplications someRuns enough small
  have experiments : (start runs initReplications nodes).campaign.master.experiments =
      Master.setup runs initReplications nodes := rfl
  have fresh : ∀ index < (Master.setup runs initReplications nodes).length, ∃ count,
      (start runs initReplications nodes).campaign.master.experiment index =
        Experiment.fresh count := by
    intro index inside
    rw [Master.experiment, experiments, List.getD_eq_getElem?_getD, List.getElem?_eq_getElem inside]
    obtain ⟨count, _, same⟩ := untouched _ (List.getElem_mem inside)
    exact ⟨count, same⟩
  have rows (index : Nat) : (start runs initReplications nodes).rows.getD index [] = [] :=
    List.getElem?_getD_replicate_default_eq _ runs index
  have none (index : Nat) : (start runs initReplications nodes).received index = [] := by
    rw [received, rows]
    rfl
  refine ⟨⟨Campaign.start_safe someRuns someReplications enough small, ?_, ?_, ?_,
    fun index inside => ?_, fun index inside => ?_, fun index => ?_⟩, length⟩
  · rw [experiments, length]
    exact List.length_replicate
  · rw [experiments, length]
    exact List.length_replicate
  · rw [experiments, length]
    exact List.length_replicate
  · obtain ⟨count, same⟩ := fresh index inside
    refine ⟨?_, ?_, ?_, ?_, ?_⟩
    · rw [none]
      exact List.getElem?_getD_replicate_default_eq _ runs index
    · rw [none, same]
      rfl
    · rw [none, rows]
      rfl
    · rw [same]
      exact List.getElem?_getD_replicate_default_eq _ runs index
    · rw [same]
      exact fun significant => by cases significant
  · obtain ⟨count, same⟩ := fresh index inside
    rw [same]
    exact (countP_issued _ index).trans (Nat.zero_add _).symm
  · rw [none]
    exact Nat.le_refl 0

theorem run_reported {runs initReplications nodes : Nat} (someRuns : 1 ≤ runs)
    (someReplications : 1 ≤ initReplications) (enough : runs * initReplications + 1 ≤ nodes)
    (small : nodes < 65536) {answers : List Answer} {final : TalliedCampaign}
    (few : answers.length < 2 ^ 31)
    (ran : Runs.run (step settings) (start runs initReplications nodes) answers = some final) :
    Reported settings (nodes - 1) answers.length final ∧
      final.campaign.master.experiments.length = runs := by
  refine @Runs.run_induction _ _ _ (fun answers final => answers.length < 2 ^ 31 →
    Reported settings (nodes - 1) answers.length final ∧
      final.campaign.master.experiments.length = runs) _ ?_ ?_ _ _ ran few
  · exact fun _ => start_reported someRuns someReplications enough small
  · intro answers before answer after _ ih stepped bound
    rw [List.length_append, List.length_singleton] at bound ⊢
    obtain ⟨reported, length⟩ := ih (by omega)
    obtain ⟨index, round⟩ := round_of_step reported.safe stepped
    exact ⟨reported.step (by omega) stepped, round.entered.length.trans length⟩

/-- Whatever the order of the answers, the line of an experiment is written once its replications
suffice, over exactly those that were issued for it, and never again. -/
theorem run_reports {runs initReplications nodes : Nat} (someRuns : 1 ≤ runs)
    (someReplications : 1 ≤ initReplications) (enough : runs * initReplications + 1 ≤ nodes)
    (small : nodes < 65536) {answers : List Answer} {final : TalliedCampaign}
    (few : answers.length < 2 ^ 31)
    (ran : Runs.run (step settings) (start runs initReplications nodes) answers = some final)
    (index : Nat) (inside : index < runs) :
    final.rows.getD index [] =
        (final.received index).mapIdx (fun index outcome => ((index : Int) + 1, outcome)) ∧
      if (final.campaign.master.experiment index).isSignificant then
        final.lines.getD index [] = [Outcome.summary (final.received index)] ∧
          (final.received index).length = final.issued index ∧
          settings.replications ≤ (final.received index).length ∧
          Precise settings.precision (final.received index)
      else final.lines.getD index [] = [] := by
  obtain ⟨reported, length⟩ := run_reported someRuns someReplications enough small few ran
  have bound : index < final.campaign.master.experiments.length := by rwa [length]
  have recorded := reported.recorded index bound
  refine ⟨recorded.rows, ?_⟩
  have lines := recorded.lines
  split
  · rename_i significant
    rw [if_pos significant] at lines
    have done := (reported.safe.balanced.accounts index bound).retired significant
    have issued := reported.issued index bound
    rw [done, Nat.add_zero] at issued
    exact ⟨lines, recorded.count.trans issued.symm, recorded.sufficient significant⟩
  · rename_i unfinished
    rw [if_neg unfinished] at lines
    exact lines

theorem run_reports_pair :
    let settings : CampaignSettings :=
      { precision := ⟨SimulationCI.tabulated, 5 / 100, 5 / 100⟩, replications := 2 }
    let answers : List Answer := [⟨2, ⟨3, 2, 1⟩⟩, ⟨1, ⟨3, 2, 1⟩⟩]
    ∃ final, Runs.run (step settings) (start 1 2 3) answers = some final ∧
      final.lines.getD 0 [] = [Outcome.summary (final.received 0)] ∧
      (final.received 0).length = final.issued 0 := by
  intro settings answers
  have checked : ∃ final ∈ Runs.run (step settings) (start 1 2 3) answers,
      (final.campaign.master.experiment 0).isSignificant = true := by
    decide +kernel
  obtain ⟨final, ran, significant⟩ := checked
  have facts := (run_reports (by decide) (by decide) (by decide) (by decide) (by decide) ran 0
    (by decide)).2
  rw [if_pos significant] at facts
  exact ⟨final, ran, facts.1, facts.2.1⟩

end TalliedCampaign

end RlAqs
