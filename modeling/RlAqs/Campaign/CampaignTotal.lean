import RlAqs.Campaign.MasterChecks
import RlAqs.Library.Runs

/-!
Every reply is handled without a fault: what one round of the receive loop does to
the counting invariant, and from it what holds in every campaign.
-/

namespace RlAqs

open scoped List

namespace Master

def Alive (master : Master) (inFlight : List Job) : Prop :=
  ∀ index < master.experiments.length, (master.experiment index).isSignificant = false →
    0 < outstanding inFlight index

section Changed

variable {workers : Nat} {master : Master} {inFlight inFlight' : List Job} {index : Nat}
  {result : Experiment} {idleNodes lazyNodes : List Nat} {jobs : Nat}

theorem updated_experiment_self (bound : index < master.experiments.length) :
    (master.updated index result idleNodes lazyNodes jobs).experiment index = result :=
  experiment_set_self master result bound

theorem updated_experiment_of_ne {query : Nat} (different : query ≠ index) :
    (master.updated index result idleNodes lazyNodes jobs).experiment query =
      master.experiment query :=
  experiment_set_of_ne master result different

theorem updated_length :
    (master.updated index result idleNodes lazyNodes jobs).experiments.length =
      master.experiments.length :=
  List.length_set

theorem Balanced.changed (balanced : Balanced workers master inFlight)
    (bound : index < master.experiments.length)
    (partition : (idleNodes ++ lazyNodes ++ inFlight'.map Job.destination).Perm
      (List.range' 1 workers))
    (known : ∀ job ∈ inFlight', ∃ index < master.experiments.length, job.simNum = index + 1)
    (others : ∀ query ≠ index, outstanding inFlight' query = outstanding inFlight query)
    (account : Account result (outstanding inFlight' index))
    (idle : idleNodes.length + share (master.experiment index) (outstanding inFlight index) =
      master.idleNodes.length + share result (outstanding inFlight' index)) :
    Balanced workers (master.updated index result idleNodes lazyNodes jobs) inFlight' where
  partition := partition
  known := by rwa [updated_length]
  accounts := by
    intro query inside
    rw [updated_length] at inside
    by_cases same : query = index
    · rwa [same, updated_experiment_self bound]
    · rw [updated_experiment_of_ne same, others query same]
      exact balanced.accounts query inside
  idle := by
    rw [updated_length]
    have sum := Sums.sum_range_changed
      (fun query => share (master.experiment query) (outstanding inFlight query))
      (fun query =>
        share ((master.updated index result idleNodes lazyNodes jobs).experiment query)
          (outstanding inFlight' query)) bound
      fun query other => by rw [updated_experiment_of_ne other, others query other]
    have before := balanced.idle
    simp only [updated_experiment_self bound] at sum
    change idleNodes.length = _
    omega

end Changed

theorem outstanding_erase {inFlight : List Job} {job : Job} (member : job ∈ inFlight) (index : Nat) :
    outstanding inFlight index =
      outstanding (inFlight.erase job) index + if job.simNum = index + 1 then 1 else 0 := by
  rw [outstanding, (List.perm_cons_erase member).countP_eq, List.countP_cons]
  simp [outstanding]

def answered (master : Master) (source index : Nat) : Master :=
  master.updated index
    { master.experiment index with numValues := (master.experiment index).numValues + 1 }
    (source :: master.idleNodes) master.lazyNodes master.jobs

section Answered

variable {master : Master} {source index : Nat}

theorem answered_length :
    (master.answered source index).experiments.length = master.experiments.length :=
  updated_length

theorem answered_experiment_self (bound : index < master.experiments.length) :
    (master.answered source index).experiment index =
      { master.experiment index with numValues := (master.experiment index).numValues + 1 } :=
  updated_experiment_self bound

theorem answered_experiment_of_ne {query : Nat} (different : query ≠ index) :
    (master.answered source index).experiment query = master.experiment query :=
  updated_experiment_of_ne different

theorem answered_simReplications (bound : index < master.experiments.length) (query : Nat) :
    ((master.answered source index).experiment query).simReplications =
      (master.experiment query).simReplications := by
  by_cases same : query = index
  · rw [same, answered_experiment_self bound]
  · rw [answered_experiment_of_ne same]

theorem receive_eq (bound : index < master.experiments.length) (isConfident : Bool) :
    master.receive source (index + 1) isConfident =
      if (master.experiment index).numValues + 1 ≥ (master.experiment index).simReplications then
        if isConfident then (master.answered source index).retire index
          ((master.answered source index).experiment index)
        else (master.answered source index).reallocate index
          ((master.answered source index).experiment index)
      else .ok (master.answered source index, []) := by
  have lookup : master.experiments[index]? = some (master.experiment index) := by
    rw [experiment, List.getD_eq_getElem?_getD, List.getElem?_eq_getElem bound]
    rfl
  rw [answered_experiment_self bound]
  simp only [Master.receive, lookup]
  rfl

end Answered

section Round

variable {workers : Nat} {master : Master} {inFlight : List Job} {job : Job} {index : Nat}

theorem Balanced.unfinished (balanced : Balanced workers master inFlight) (member : job ∈ inFlight)
    (bound : index < master.experiments.length) (own : job.simNum = index + 1) :
    (master.experiment index).isSignificant = false := by
  have counted := outstanding_erase member index
  rw [if_pos own] at counted
  by_contra significant
  have none := (balanced.accounts index bound).retired (by simpa using significant)
  omega

theorem Balanced.answered (balanced : Balanced workers master inFlight) (member : job ∈ inFlight)
    (bound : index < master.experiments.length) (own : job.simNum = index + 1) :
    Balanced workers (master.answered job.destination index) (inFlight.erase job) := by
  have unfinished := balanced.unfinished member bound own
  have account := balanced.accounts index bound
  have counted := outstanding_erase member index
  rw [if_pos own] at counted
  have received := account.received
  have batch := account.batch
  refine balanced.changed bound ?_ ?_ ?_ ?_ ?_
  · have order : (job.destination :: master.idleNodes ++ master.lazyNodes ++
        (inFlight.erase job).map Job.destination).Perm
        (master.idleNodes ++ master.lazyNodes ++ inFlight.map Job.destination) := by
      have moved := (List.perm_cons_erase member).map Job.destination
      rw [List.map_cons] at moved
      exact List.perm_middle.symm.trans (moved.symm.append_left _)
    exact order.trans balanced.partition
  · intro other inside
    exact balanced.known other (List.mem_of_mem_erase inside)
  · intro query different
    have same := outstanding_erase member query
    rw [if_neg (by omega)] at same
    omega
  · constructor
    · simp only
      omega
    · exact account.started
    · exact account.active
    · simp only
      omega
    · intro significant
      simp only [unfinished, Bool.false_eq_true] at significant
  · simp only [share, unfinished, List.length_cons, Bool.false_eq_true, ↓reduceIte]
    omega

theorem Balanced.batch_idle (balanced : Balanced workers master inFlight)
    (bound : index < master.experiments.length) (complete : outstanding inFlight index = 0)
    (unfinished : (master.experiment index).isSignificant = false) :
    (master.experiment index).simActiveReplications ≤ master.idleNodes.length := by
  have term := Sums.term_le_sum
    (fun index => share (master.experiment index) (outstanding inFlight index)) bound
  simp only [share, unfinished, complete, Bool.false_eq_true, ↓reduceIte, Nat.sub_zero] at term
  rw [balanced.idle]
  exact term

theorem Balanced.reallocated (balanced : Balanced workers master inFlight)
    (bound : index < master.experiments.length) (complete : outstanding inFlight index = 0)
    (unfinished : (master.experiment index).isSignificant = false) :
    let active := (master.experiment index).simActiveReplications
    let count := active + master.lazyNodes.length
    let sent := assign (index + 1) (master.experiment index).numValues 0 master.jobs
      (master.idleNodes.take active ++ master.lazyNodes)
    Balanced workers
        (master.updated index
          { master.experiment index with
            simActiveReplications := count
            simReplications := (master.experiment index).simReplications + count }
          (master.idleNodes.drop active) [] (master.jobs + count))
        (inFlight ++ sent) ∧
      outstanding (inFlight ++ sent) index = count ∧
      ∀ query ≠ index, outstanding (inFlight ++ sent) query = outstanding inFlight query := by
  intro active count sent
  have account := balanced.accounts index bound
  have enough := balanced.batch_idle bound complete unfinished
  have length : sent.length = count := by
    rw [assign_length, List.length_append, List.length_take, Nat.min_eq_left enough]
  have own : ∀ job ∈ sent, job.simNum = index + 1 := fun job member =>
    assign_simNum _ _ member
  have all : outstanding (inFlight ++ sent) index = count := by
    rw [outstanding_append, complete, outstanding_all own, length, Nat.zero_add]
  have others : ∀ query ≠ index, outstanding (inFlight ++ sent) query =
      outstanding inFlight query := by
    intro query different
    rw [outstanding_append, outstanding_none different own, Nat.add_zero]
  have received := account.received
  have started := account.started
  have enoughActive := account.active
  refine ⟨balanced.changed bound ?_ ?_ others ?_ ?_, all, others⟩
  · rw [List.map_append, assign_destinations]
    apply List.Perm.trans _ balanced.partition
    have split := List.take_append_drop active master.idleNodes
    calc master.idleNodes.drop active ++ [] ++
          (inFlight.map Job.destination ++ (master.idleNodes.take active ++ master.lazyNodes))
        = (master.idleNodes.drop active ++ inFlight.map Job.destination ++
            master.idleNodes.take active) ++ master.lazyNodes := by simp
      _ ~ (master.idleNodes.take active ++ (master.idleNodes.drop active ++
            inFlight.map Job.destination)) ++ master.lazyNodes :=
          List.perm_append_comm.append_right _
      _ = master.idleNodes ++ (inFlight.map Job.destination ++ master.lazyNodes) := by
          rw [← List.append_assoc, split, List.append_assoc]
      _ ~ master.idleNodes ++ (master.lazyNodes ++ inFlight.map Job.destination) :=
          List.perm_append_comm.append_left _
      _ = master.idleNodes ++ master.lazyNodes ++ inFlight.map Job.destination := by
          rw [List.append_assoc]
  · intro job member
    rcases List.mem_append.mp member with old | new
    · exact balanced.known job old
    · exact ⟨index, bound, own job new⟩
  · rw [all]
    constructor
    · simp only
      omega
    · exact started
    · simp only [count, active]
      omega
    · exact Nat.le_refl _
    · intro significant
      simp only [unfinished, Bool.false_eq_true] at significant
  · rw [all, complete]
    simp only [share, unfinished, List.length_drop, Bool.false_eq_true, ↓reduceIte]
    omega

theorem Balanced.retired (balanced : Balanced workers master inFlight)
    (bound : index < master.experiments.length) (complete : outstanding inFlight index = 0)
    (unfinished : (master.experiment index).isSignificant = false) :
    Balanced workers
      (master.updated index { master.experiment index with isSignificant := true }
        (master.idleNodes.drop (master.experiment index).simActiveReplications)
        ((master.idleNodes.take (master.experiment index).simActiveReplications).reverse ++
          master.lazyNodes) master.jobs) inFlight := by
  have account := balanced.accounts index bound
  have enough := balanced.batch_idle bound complete unfinished
  refine balanced.changed bound ?_ balanced.known (fun _ _ => rfl) ?_ ?_
  · apply List.Perm.trans _ balanced.partition
    apply List.Perm.append_right
    generalize (master.experiment index).simActiveReplications = active
    have split := List.take_append_drop active master.idleNodes
    rw [← List.append_assoc]
    apply List.Perm.append_right
    calc master.idleNodes.drop active ++ (master.idleNodes.take active).reverse
        ~ master.idleNodes.drop active ++ master.idleNodes.take active :=
          (List.reverse_perm _).append_left _
      _ ~ master.idleNodes.take active ++ master.idleNodes.drop active :=
          List.perm_append_comm
      _ = master.idleNodes := split
  · exact ⟨account.received, account.started, account.active, account.batch, fun _ => complete⟩
  · simp only [share, unfinished, complete, List.length_drop, Bool.false_eq_true, ↓reduceIte,
      Nat.sub_zero]
    omega

end Round

def requested (master : Master) (simulationId : Nat) (isConfident : Bool) : Nat :=
  let experiment := master.experiment (simulationId - 1)
  if experiment.numValues + 1 ≥ experiment.simReplications ∧ ¬ isConfident then
    experiment.simActiveReplications + master.lazyNodes.length
  else 0

structure Round (workers : Nat) (master : Master) (inFlight : List Job) (next : Master)
    (sent : List Job) : Prop where
  balanced : Balanced workers next (inFlight ++ sent)
  alive : next.Alive (inFlight ++ sent)
  length : next.experiments.length = master.experiments.length
  grows : ∀ index, (master.experiment index).simReplications ≤
    (next.experiment index).simReplications
  fresh : ∀ job ∈ sent, ∃ index < master.experiments.length, job.simNum = index + 1 ∧
    (master.experiment index).simReplications < job.repNum ∧
      job.repNum ≤ (next.experiment index).simReplications
  distinct : (sent.map fun job => (job.simNum, job.repNum)).Nodup
  jobs : next.jobs = master.jobs + sent.length
  tags : ∀ job ∈ sent, master.jobs ≤ job.tag ∧ job.tag < master.jobs + sent.length

section Complete

variable {workers : Nat} {master : Master} {inFlight : List Job} {index : Nat}

theorem Balanced.reallocate_round (balanced : Balanced workers master inFlight)
    (bound : index < master.experiments.length) (complete : outstanding inFlight index = 0)
    (unfinished : (master.experiment index).isSignificant = false)
    (alive : ∀ query < master.experiments.length, query ≠ index →
      (master.experiment query).isSignificant = false → 0 < outstanding inFlight query) :
    ∃ next sent, master.reallocate index (master.experiment index) = .ok (next, sent) ∧
      Round workers master inFlight next sent ∧
      sent.length =
        (master.experiment index).simActiveReplications + master.lazyNodes.length := by
  have account := balanced.accounts index bound
  have enough := balanced.batch_idle bound complete unfinished
  obtain ⟨kept, all, others⟩ := balanced.reallocated bound complete unfinished
  have started := account.started
  have active := account.active
  have received := account.received
  have length := assign_length (index + 1) (master.experiment index).numValues 0 master.jobs
    (master.idleNodes.take (master.experiment index).simActiveReplications ++ master.lazyNodes)
  rw [List.length_append, List.length_take, Nat.min_eq_left enough] at length
  refine ⟨_, _, reallocate_eq master index _ account.active enough, ⟨kept, ?_, updated_length, ?_,
    ?_, assign_nodup _ _ _ _ _, ?_, ?_⟩, length⟩
  · intro query inside waiting
    rw [updated_length] at inside
    by_cases same : query = index
    · rw [same, all]
      omega
    · rw [updated_experiment_of_ne same] at waiting
      rw [others query same]
      exact alive query inside same waiting
  · intro query
    by_cases same : query = index
    · rw [same, updated_experiment_self bound]
      exact Nat.le_add_right _ _
    · rw [updated_experiment_of_ne same]
  · intro job member
    have range := assign_repNum _ _ member
    rw [List.length_append, List.length_take, Nat.min_eq_left enough] at range
    refine ⟨index, bound, assign_simNum _ _ member, ?_, ?_⟩
    · omega
    · rw [updated_experiment_self bound]
      simp only
      push_cast at range ⊢
      omega
  · rw [length]
    rfl
  · intro job member
    rw [assign_length]
    exact assign_tag _ _ member

theorem Balanced.retire_round (balanced : Balanced workers master inFlight)
    (bound : index < master.experiments.length) (complete : outstanding inFlight index = 0)
    (unfinished : (master.experiment index).isSignificant = false)
    (alive : ∀ query < master.experiments.length, query ≠ index →
      (master.experiment query).isSignificant = false → 0 < outstanding inFlight query) :
    ∃ next sent, master.retire index (master.experiment index) = .ok (next, sent) ∧
      Round workers master inFlight next sent ∧ sent.length = 0 := by
  have enough := balanced.batch_idle bound complete unfinished
  refine ⟨_, _, retire_eq master index _ enough,
    ⟨?_, ?_, updated_length, ?_, by simp, by simp, rfl, by simp⟩, rfl⟩
  · rw [List.append_nil]
    exact balanced.retired bound complete unfinished
  · intro query inside waiting
    rw [updated_length] at inside
    rw [List.append_nil]
    by_cases same : query = index
    · rw [same, updated_experiment_self bound] at waiting
      simp at waiting
    · rw [updated_experiment_of_ne same] at waiting
      exact alive query inside same waiting
  · intro query
    by_cases same : query = index
    · rw [same, updated_experiment_self bound]
    · rw [updated_experiment_of_ne same]

end Complete

section Receive

variable {workers : Nat} {master : Master} {inFlight : List Job} {job : Job} {index : Nat}

theorem Round.of_answered {source : Nat} {next : Master} {sent : List Job}
    (bound : index < master.experiments.length)
    (round : Round workers (master.answered source index) inFlight next sent) :
    Round workers master inFlight next sent := by
  refine ⟨round.balanced, round.alive, round.length.trans answered_length, ?_, ?_,
    round.distinct, round.jobs, round.tags⟩
  · intro query
    rw [← answered_simReplications bound query]
    exact round.grows query
  · intro new inside
    obtain ⟨query, known, number, above, below⟩ := round.fresh new inside
    rw [answered_simReplications bound query] at above
    exact ⟨query, by rwa [← answered_length], number, above, below⟩

theorem Alive.answered (alive : master.Alive inFlight) (member : job ∈ inFlight)
    (own : job.simNum = index + 1) {query : Nat}
    (bound : query < (master.answered job.destination index).experiments.length)
    (different : query ≠ index)
    (waiting : ((master.answered job.destination index).experiment query).isSignificant = false) :
    0 < outstanding (inFlight.erase job) query := by
  rw [answered_length] at bound
  rw [answered_experiment_of_ne different] at waiting
  have before := alive query bound waiting
  have same := outstanding_erase member query
  rw [if_neg (by omega)] at same
  omega

theorem Balanced.wait_round (balanced : Balanced workers master inFlight)
    (alive : master.Alive inFlight) : Round workers master inFlight master [] := by
  refine ⟨?_, ?_, rfl, fun _ => Nat.le_refl _, by simp, by simp, rfl, by simp⟩
  · rw [List.append_nil]
    exact balanced
  · rw [List.append_nil]
    exact alive

theorem Balanced.receive (balanced : Balanced workers master inFlight)
    (alive : master.Alive inFlight) (member : job ∈ inFlight) (isConfident : Bool) :
    ∃ next sent, master.receive job.destination job.simNum isConfident = .ok (next, sent) ∧
      Round workers master (inFlight.erase job) next sent ∧
      sent.length = master.requested job.simNum isConfident := by
  obtain ⟨index, bound, own⟩ := balanced.known job member
  have unfinished := balanced.unfinished member bound own
  have kept := balanced.answered member bound own
  have bound' : index < (master.answered job.destination index).experiments.length := by
    rwa [answered_length]
  have result : (master.answered job.destination index).experiment index = _ :=
    answered_experiment_self bound
  have active : ((master.answered job.destination index).experiment index).simActiveReplications =
      (master.experiment index).simActiveReplications := by rw [result]
  have unfinished' : ((master.answered job.destination index).experiment index).isSignificant =
      false := by
    rw [result]
    exact unfinished
  have counted := outstanding_erase member index
  rw [if_pos own] at counted
  have received := (balanced.accounts index bound).received
  have others := fun query (inside : query < _) => alive.answered member own inside
  rw [own, receive_eq bound]
  simp only [requested, Nat.add_sub_cancel]
  by_cases last : (master.experiment index).numValues + 1 ≥
      (master.experiment index).simReplications
  · have complete : outstanding (inFlight.erase job) index = 0 := by omega
    cases isConfident with
    | true =>
        obtain ⟨next, sent, done, round, size⟩ := kept.retire_round bound' complete
          unfinished' others
        refine ⟨next, sent, ?_, round.of_answered bound, ?_⟩
        · simpa [last] using done
        · simpa using size
    | false =>
        obtain ⟨next, sent, done, round, size⟩ := kept.reallocate_round bound' complete
          unfinished' others
        have lazy : (master.answered job.destination index).lazyNodes = master.lazyNodes := rfl
        rw [active, lazy] at size
        refine ⟨next, sent, ?_, round.of_answered bound, ?_⟩
        · simpa [last] using done
        · simpa [last] using size
  · simp only [last, false_and, ↓reduceIte]
    refine ⟨_, _, rfl, (kept.wait_round ?_).of_answered bound, rfl⟩
    intro query inside waiting
    by_cases same : query = index
    · rw [same]
      omega
    · exact others query inside same waiting

end Receive

end Master

end RlAqs
