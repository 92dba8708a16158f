import RlAqs.Campaign.CampaignTotal

/-! The set-up of a campaign satisfies the counting invariant, and so every state of it does. -/

namespace RlAqs

namespace Master

def Untouched (initReplications : Nat) (experiments : List Experiment) : Prop :=
  ∀ experiment ∈ experiments, ∃ count, initReplications ≤ count ∧
    experiment = Experiment.fresh count

def firstJobs (experiments : List Experiment) : Nat :=
  (experiments.map Experiment.simInitReplications).sum

theorem firstJobs_modify {experiments : List Experiment} {index : Nat}
    (inside : index < experiments.length) :
    firstJobs (experiments.modify index .grow) = firstJobs experiments + 1 := by
  induction experiments generalizing index with
  | nil => simp at inside
  | cons experiment rest ih =>
      cases index with
      | zero =>
          simp only [List.modify_zero_cons, firstJobs, List.map_cons, List.sum_cons,
            Experiment.grow]
          omega
      | succ index =>
          have later := @ih index (by simpa using inside)
          simp only [firstJobs] at later
          simp only [List.modify_succ_cons, firstJobs, List.map_cons, List.sum_cons, later]
          omega

theorem Untouched.modify {initReplications : Nat} {experiments : List Experiment}
    (untouched : Untouched initReplications experiments) (index : Nat) :
    Untouched initReplications (experiments.modify index .grow) := by
  intro experiment member
  obtain ⟨position, found⟩ := List.mem_iff_getElem?.mp member
  rw [List.getElem?_modify] at found
  cases before : experiments[position]? with
  | none => simp [before] at found
  | some old =>
      obtain ⟨count, enough, same⟩ := untouched old (List.mem_of_getElem? before)
      simp only [before, Option.map_eq_map, Option.map_some] at found
      split at found
      · refine ⟨count + 1, by omega, ?_⟩
        rw [same] at found
        exact (Option.some.inj found).symm
      · exact ⟨count, enough, (Option.some.inj found).symm.trans same⟩

theorem distribute_spec {initReplications runs : Nat} (positive : 0 < runs) (freeNodes : Nat)
    {experiments : List Experiment} (length : experiments.length = runs)
    (untouched : Untouched initReplications experiments) :
    (distribute runs freeNodes experiments).length = runs ∧
      Untouched initReplications (distribute runs freeNodes experiments) ∧
      firstJobs (distribute runs freeNodes experiments) = firstJobs experiments + freeNodes := by
  induction freeNodes with
  | zero => exact ⟨length, untouched, rfl⟩
  | succ freeNodes ih =>
      obtain ⟨same, kept, total⟩ := ih
      have step : distribute runs (freeNodes + 1) experiments =
          (distribute runs freeNodes experiments).modify (freeNodes % runs) .grow := by
        simp only [distribute, List.range_succ, List.foldl_append, List.foldl_cons,
          List.foldl_nil]
      rw [step]
      refine ⟨by rw [List.length_modify, same], kept.modify _, ?_⟩
      rw [firstJobs_modify (by rw [same]; exact Nat.mod_lt _ positive), total]
      omega

theorem setup_spec {runs nodes : Nat} (initReplications : Nat) (someRuns : 1 ≤ runs)
    (enough : runs * initReplications + 1 ≤ nodes) (small : nodes < 65536) :
    (setup runs initReplications nodes).length = runs ∧
      Untouched initReplications (setup runs initReplications nodes) ∧
      firstJobs (setup runs initReplications nodes) = nodes - 1 := by
  have untouched : Untouched initReplications
      (List.replicate runs (Experiment.fresh initReplications)) := fun experiment member =>
    ⟨initReplications, Nat.le_refl _, List.eq_of_mem_replicate member⟩
  obtain ⟨length, kept, total⟩ := distribute_spec someRuns (freeNodes runs initReplications nodes)
    (List.length_replicate ..) untouched
  refine ⟨length, kept, ?_⟩
  have free : freeNodes runs initReplications nodes = nodes - (runs * initReplications + 1) := by
    rw [freeNodes, Int.emod_eq_of_lt]
    · omega
    · omega
    · omega
  have first : firstJobs (List.replicate runs (Experiment.fresh initReplications)) =
      runs * initReplications := by
    simp [firstJobs, Experiment.fresh]
  rw [setup, total, first, free]
  omega

/-! The first jobs. -/

theorem initialJobs_destinations (experiments : List Experiment) (simNum jobs : Nat) :
    (initialJobs experiments simNum jobs).map Job.destination =
      List.range' jobs (firstJobs experiments) := by
  induction experiments generalizing simNum jobs with
  | nil => rfl
  | cons experiment rest ih =>
      have batch : (firstBatch simNum jobs experiment.simInitReplications).map Job.destination =
          List.range' jobs experiment.simInitReplications := by
        rw [firstBatch, List.map_map, List.range'_eq_map_range]
        rfl
      rw [initialJobs, List.map_append, batch, ih, List.range'_append_1]
      rfl

theorem firstBatch_spec {simNum jobs count : Nat} {job : Job}
    (member : job ∈ firstBatch simNum jobs count) :
    job.simNum = simNum ∧ 1 ≤ job.repNum ∧ job.repNum ≤ count := by
  obtain ⟨i, inside, rfl⟩ := List.mem_map.mp member
  have bound := List.mem_range.mp inside
  refine ⟨rfl, ?_, ?_⟩ <;> simp only <;> omega

theorem initialJobs_spec {experiments : List Experiment} {simNum jobs : Nat} {job : Job}
    (member : job ∈ initialJobs experiments simNum jobs) :
    ∃ index < experiments.length, job.simNum = simNum + index ∧
      job.repNum ≤ (experiments.getD index default).simInitReplications := by
  induction experiments generalizing simNum jobs with
  | nil => simp [initialJobs] at member
  | cons experiment rest ih =>
      rcases List.mem_append.mp member with first | later
      · obtain ⟨own, _, below⟩ := firstBatch_spec first
        exact ⟨0, by simp, own, by simpa using below⟩
      · obtain ⟨index, inside, own, below⟩ := ih later
        refine ⟨index + 1, by simpa using inside, by omega, ?_⟩
        rwa [List.getD_cons_succ]

theorem initialJobs_count (experiments : List Experiment) (simNum jobs index : Nat) :
    ((initialJobs experiments simNum jobs).countP fun job => job.simNum = simNum + index) =
      (experiments.getD index default).simInitReplications := by
  induction experiments generalizing simNum jobs index with
  | nil =>
      rw [List.getD_nil]
      rfl
  | cons experiment rest ih =>
      rw [initialJobs, List.countP_append]
      cases index with
      | zero =>
          have own : ((firstBatch simNum jobs experiment.simInitReplications).countP
              fun job => job.simNum = simNum + 0) = experiment.simInitReplications := by
            rw [List.countP_eq_length.mpr]
            · simp [firstBatch]
            · intro job member
              simp [(firstBatch_spec member).1]
          have none : ((initialJobs rest (simNum + 1)
              (jobs + experiment.simInitReplications)).countP
              fun job => job.simNum = simNum + 0) = 0 := by
            rw [List.countP_eq_zero]
            intro job member
            obtain ⟨other, _, number, _⟩ := initialJobs_spec member
            simp only [decide_eq_true_eq]
            omega
          rw [own, none, List.getD_cons_zero, Nat.add_zero]
      | succ index =>
          have none : ((firstBatch simNum jobs experiment.simInitReplications).countP
              fun job => job.simNum = simNum + (index + 1)) = 0 := by
            rw [List.countP_eq_zero]
            intro job member
            have own := (firstBatch_spec member).1
            simp only [decide_eq_true_eq]
            omega
          have later := ih (simNum + 1) (jobs + experiment.simInitReplications) index
          have shift : simNum + (index + 1) = simNum + 1 + index := by omega
          rw [none, Nat.zero_add, List.getD_cons_succ, shift, later]

theorem initialJobs_nodup (experiments : List Experiment) (simNum jobs : Nat) :
    ((initialJobs experiments simNum jobs).map fun job => (job.simNum, job.repNum)).Nodup := by
  induction experiments generalizing simNum jobs with
  | nil => exact List.nodup_nil
  | cons experiment rest ih =>
      rw [initialJobs, List.map_append, List.nodup_append]
      refine ⟨?_, ih _ _, ?_⟩
      · rw [firstBatch, List.map_map]
        apply List.Nodup.map _ List.nodup_range
        intro i j same
        have number := congrArg Prod.snd same
        simp only [Function.comp_apply] at number
        omega
      · intro pair first other later same
        obtain ⟨job, inFirst, rfl⟩ := List.mem_map.mp first
        obtain ⟨job', inLater, rfl⟩ := List.mem_map.mp later
        have own := (firstBatch_spec inFirst).1
        obtain ⟨index, _, number, _⟩ := initialJobs_spec inLater
        have equal := congrArg Prod.fst same
        simp only at equal
        omega

theorem initialJobs_outstanding (experiments : List Experiment) (index : Nat) :
    outstanding (initialJobs experiments 1 1) index =
      (experiments.getD index default).simInitReplications := by
  rw [← initialJobs_count experiments 1 1 index, outstanding]
  simp only [Nat.add_comm]

end Master

namespace Campaign

open Master (Balanced outstanding)

structure Safe (workers : Nat) (campaign : Campaign) : Prop where
  noFault : campaign.fault = none
  balanced : Balanced workers campaign.master campaign.inFlight
  alive : campaign.master.Alive campaign.inFlight
  numbered : ∀ pair ∈ campaign.issued, ∃ index < campaign.master.experiments.length,
    pair.1 = index + 1 ∧ pair.2 ≤ (campaign.master.experiment index).simReplications
  distinct : campaign.issued.Nodup

theorem start_safe {runs initReplications nodes : Nat} (someRuns : 1 ≤ runs)
    (someReplications : 1 ≤ initReplications) (enough : runs * initReplications + 1 ≤ nodes)
    (small : nodes < 65536) : (start runs initReplications nodes).Safe (nodes - 1) := by
  obtain ⟨length, untouched, total⟩ := Master.setup_spec initReplications
    someRuns enough small
  have fresh : ∀ index < (Master.setup runs initReplications nodes).length,
      ∃ count, initReplications ≤ count ∧
        (Master.setup runs initReplications nodes).getD index default =
          Experiment.fresh count := by
    intro index inside
    rw [List.getD_eq_getElem?_getD, List.getElem?_eq_getElem inside]
    exact untouched _ (List.getElem_mem inside)
  have unanswered := Master.initialJobs_outstanding (Master.setup runs initReplications nodes)
  constructor
  · rfl
  · constructor
    · simp only [start, Master.start, List.nil_append]
      rw [Master.initialJobs_destinations, total]
    · intro job member
      obtain ⟨index, inside, number, _⟩ := Master.initialJobs_spec member
      exact ⟨index, inside, by omega⟩
    · intro index inside
      obtain ⟨count, positive, same⟩ := fresh index inside
      have waiting := unanswered index
      rw [same] at waiting
      simp only [start, Master.start, Master.experiment, same, waiting]
      constructor <;> simp only [Experiment.fresh] <;> first | omega | simp
    · simp only [start, Master.start, List.length_nil]
      symm
      apply Finset.sum_eq_zero
      intro index inside
      obtain ⟨count, positive, same⟩ := fresh index (Finset.mem_range.mp inside)
      have waiting := unanswered index
      rw [same] at waiting
      simp only [Master.experiment, same, waiting]
      simp [Master.share, Experiment.fresh]
  · intro index inside _
    obtain ⟨count, positive, same⟩ := fresh index inside
    have waiting := unanswered index
    rw [same] at waiting
    simp only [start, Master.start, waiting, Experiment.fresh]
    omega
  · intro pair member
    obtain ⟨job, inside, rfl⟩ := List.mem_map.mp member
    obtain ⟨index, bound, number, below⟩ := Master.initialJobs_spec inside
    obtain ⟨count, positive, same⟩ := fresh index bound
    refine ⟨index, bound, by simp only; omega, ?_⟩
    rw [same] at below
    simp only [start, Master.start, Master.experiment, same]
    exact below
  · exact Master.initialJobs_nodup _ _ _

theorem Safe.step {workers : Nat} {campaign next : Campaign} {reply : Reply}
    (safe : campaign.Safe workers) (stepped : campaign.step reply = some next) :
    next.Safe workers := by
  simp only [Campaign.step] at stepped
  split at stepped
  · simp at stepped
  · cases found : campaign.inFlight.find? fun job => job.destination = reply.source with
    | none => simp [found] at stepped
    | some job =>
        have member := List.mem_of_find?_eq_some found
        have source : job.destination = reply.source := by
          simpa using List.find?_some found
        obtain ⟨master, sent, received, round, _⟩ :=
          safe.balanced.receive safe.alive member reply.isConfident
        rw [source] at received
        simp only [found, received, Option.some.injEq] at stepped
        subst stepped
        refine ⟨safe.noFault, round.balanced, round.alive, ?_, ?_⟩
        · intro pair issued
          rcases List.mem_append.mp issued with old | new
          · obtain ⟨index, bound, number, below⟩ := safe.numbered pair old
            refine ⟨index, by rwa [round.length], number, below.trans ?_⟩
            exact_mod_cast round.grows index
          · obtain ⟨job', inside, rfl⟩ := List.mem_map.mp new
            obtain ⟨index, bound, number, _, below⟩ := round.fresh job' inside
            exact ⟨index, by rwa [round.length], number, below⟩
        · refine List.nodup_append.mpr ⟨safe.distinct, round.distinct, ?_⟩
          intro pair old other new same
          obtain ⟨job', inside, rfl⟩ := List.mem_map.mp new
          obtain ⟨index, bound, number, below⟩ := safe.numbered pair old
          obtain ⟨index', bound', number', above, _⟩ := round.fresh job' inside
          subst same
          have equal : index = index' := by
            simp only at number
            omega
          subst equal
          simp only at below
          omega

def busy (campaign : Campaign) : List Nat := campaign.inFlight.map Job.destination

theorem Safe.finished {workers : Nat} {campaign : Campaign} (safe : campaign.Safe workers)
    (significant : campaign.master.areAllSignificant = true) :
    campaign.inFlight = [] ∧ campaign.master.lazyNodes.Perm (List.range' 1 workers) := by
  have retired : ∀ index < campaign.master.experiments.length,
      (campaign.master.experiment index).isSignificant = true := by
    intro index inside
    rw [Master.experiment, List.getD_eq_getElem?_getD, List.getElem?_eq_getElem inside]
    exact List.all_eq_true.mp significant _ (List.getElem_mem inside)
  have none : campaign.inFlight = [] := by
    by_contra some
    obtain ⟨job, member⟩ := List.exists_mem_of_ne_nil _ some
    obtain ⟨index, inside, own⟩ := safe.balanced.known job member
    have unfinished := safe.balanced.unfinished member inside own
    rw [retired index inside] at unfinished
    exact absurd unfinished (by simp)
  have idle : campaign.master.idleNodes = [] := by
    apply List.eq_nil_of_length_eq_zero
    rw [safe.balanced.idle]
    apply Finset.sum_eq_zero
    intro index inside
    simp [Master.share, retired index (Finset.mem_range.mp inside)]
  have partition := safe.balanced.partition
  rw [none, idle] at partition
  exact ⟨none, by simpa using partition⟩

/-- In every campaign idle, lazy and busy workers share out the ranks, no replication is
issued twice, no node is taken from an empty list, and the loop ends with all workers lazy. -/
theorem run_safe (runs initReplications nodes : Nat) (someRuns : 1 ≤ runs)
    (someReplications : 1 ≤ initReplications) (enough : runs * initReplications + 1 ≤ nodes)
    (small : nodes < 65536) (replies : List Reply) (campaign : Campaign)
    (ran : Runs.run step (start runs initReplications nodes) replies = some campaign) :
    campaign.fault = none ∧
      (campaign.master.idleNodes ++ campaign.master.lazyNodes ++ campaign.busy).Perm
        (List.range' 1 (nodes - 1)) ∧
      campaign.busy.Nodup ∧ campaign.issued.Nodup ∧
      (campaign.master.areAllSignificant = true →
        campaign.inFlight = [] ∧ campaign.master.lazyNodes.Perm (List.range' 1 (nodes - 1))) := by
  have safe : campaign.Safe (nodes - 1) :=
    Runs.run_invariant _ (fun _ _ _ safe stepped => safe.step stepped)
      (start_safe someRuns someReplications enough small) ran
  have partition := safe.balanced.partition
  have nodup := partition.nodup_iff.mpr List.nodup_range'
  exact ⟨safe.noFault, partition, (List.nodup_append.mp nodup).2.1, safe.distinct, safe.finished⟩

theorem run_safe_two : ∃ campaign,
    Runs.run step (start 2 1 4) [⟨2, true⟩, ⟨3, false⟩, ⟨1, false⟩, ⟨2, true⟩] = some campaign ∧
      campaign.issued.Nodup := by
  refine ⟨_, rfl, (run_safe 2 1 4 (by decide) (by decide) (by decide) (by decide)
    [⟨2, true⟩, ⟨3, false⟩, ⟨1, false⟩, ⟨2, true⟩] _ rfl).2.2.2.1⟩

end Campaign

end RlAqs
