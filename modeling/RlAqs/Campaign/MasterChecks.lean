import RlAqs.Campaign.MasterCore
import RlAqs.Library.Sums

/-!
The counting invariant of the master: the idle nodes are those that the batches of
unfinished experiments have got back.
-/

namespace RlAqs

namespace Master

def outstanding (inFlight : List Job) (index : Nat) : Nat :=
  inFlight.countP fun job => job.simNum = index + 1

def experiment (master : Master) (index : Nat) : Experiment :=
  master.experiments.getD index default

def share (experiment : Experiment) (outstanding : Nat) : Nat :=
  if experiment.isSignificant then 0 else experiment.simActiveReplications - outstanding

structure Account (experiment : Experiment) (outstanding : Nat) : Prop where
  received : experiment.numValues + outstanding = experiment.simReplications
  started : 0 < experiment.simInitReplications
  active : experiment.simInitReplications ≤ experiment.simActiveReplications
  batch : outstanding ≤ experiment.simActiveReplications
  retired : experiment.isSignificant = true → outstanding = 0

structure Balanced (workers : Nat) (master : Master) (inFlight : List Job) : Prop where
  partition : (master.idleNodes ++ master.lazyNodes ++ inFlight.map Job.destination).Perm
    (List.range' 1 workers)
  known : ∀ job ∈ inFlight, ∃ index < master.experiments.length, job.simNum = index + 1
  accounts : ∀ index < master.experiments.length,
    Account (master.experiment index) (outstanding inFlight index)
  idle : master.idleNodes.length = ∑ index ∈ Finset.range master.experiments.length,
    share (master.experiment index) (outstanding inFlight index)

theorem experiment_set_self (master : Master) {index : Nat} (changed : Experiment)
    (bound : index < master.experiments.length) :
    (master.experiments.set index changed).getD index default = changed := by
  simp [List.getD_eq_getElem?_getD, bound]

theorem experiment_set_of_ne (master : Master) {index query : Nat} (changed : Experiment)
    (different : query ≠ index) :
    (master.experiments.set index changed).getD query default = master.experiment query := by
  rw [experiment, List.getD_eq_getElem?_getD, List.getD_eq_getElem?_getD,
    List.getElem?_set_ne different.symm]

theorem outstanding_append (first second : List Job) (index : Nat) :
    outstanding (first ++ second) index = outstanding first index + outstanding second index :=
  List.countP_append

theorem outstanding_all {jobs : List Job} {index : Nat}
    (same : ∀ job ∈ jobs, job.simNum = index + 1) : outstanding jobs index = jobs.length :=
  List.countP_eq_length.mpr fun job member => by simp [same job member]

theorem outstanding_none {jobs : List Job} {index query : Nat} (different : query ≠ index)
    (same : ∀ job ∈ jobs, job.simNum = index + 1) : outstanding jobs query = 0 :=
  List.countP_eq_zero.mpr fun job member => by
    simp [same job member, different.symm]

/-! The loops. -/

def assign (simNum numValues : Nat) : Int → Nat → List Nat → List Job
  | _, _, [] => []
  | i, jobs, node :: rest =>
      { destination := node, tag := jobs, simNum := simNum, repNum := numValues + 1 + i } ::
        assign simNum numValues (i + 1) (jobs + 1) rest

section Assign

variable (simNum numValues : Nat)

theorem assign_destinations (i : Int) (jobs : Nat) (nodes : List Nat) :
    (assign simNum numValues i jobs nodes).map Job.destination = nodes := by
  induction nodes generalizing i jobs with
  | nil => rfl
  | cons node rest ih => simp [assign, ih]

theorem assign_length (i : Int) (jobs : Nat) (nodes : List Nat) :
    (assign simNum numValues i jobs nodes).length = nodes.length := by
  have lengths := congrArg List.length (assign_destinations simNum numValues i jobs nodes)
  rwa [List.length_map] at lengths

theorem assign_simNum {i : Int} {jobs : Nat} {nodes : List Nat} {job : Job}
    (member : job ∈ assign simNum numValues i jobs nodes) : job.simNum = simNum := by
  induction nodes generalizing i jobs with
  | nil => simp [assign] at member
  | cons node rest ih =>
      rcases List.mem_cons.mp member with rfl | later
      · rfl
      · exact ih later

theorem assign_append (i : Int) (jobs : Nat) (first second : List Nat) :
    assign simNum numValues i jobs (first ++ second) =
      assign simNum numValues i jobs first ++
        assign simNum numValues (i + first.length) (jobs + first.length) second := by
  induction first generalizing i jobs with
  | nil => simp [assign]
  | cons node rest ih =>
      simp only [List.cons_append, assign, ih, List.length_cons]
      have position : i + 1 + (rest.length : Int) = i + ((rest.length + 1 : Nat) : Int) := by
        omega
      have number : jobs + 1 + rest.length = jobs + (rest.length + 1) := by omega
      rw [position, number]

theorem assign_numbered {i : Int} {jobs : Nat} {nodes : List Nat} {job : Job}
    (member : job ∈ assign simNum numValues i jobs nodes) :
    ∃ offset < nodes.length,
      job.repNum = numValues + 1 + i + offset ∧ job.tag = jobs + offset := by
  induction nodes generalizing i jobs with
  | nil => simp [assign] at member
  | cons node rest ih =>
      rcases List.mem_cons.mp member with rfl | later
      · exact ⟨0, Nat.succ_pos _, by simp, rfl⟩
      · obtain ⟨offset, inside, repNum, tag⟩ := ih later
        exact ⟨offset + 1, Nat.succ_lt_succ inside, by omega, by omega⟩

/-- Replication numbers go up from `numValues + 1 + i`, so no two jobs have the same. -/
theorem assign_repNum {i : Int} {jobs : Nat} {nodes : List Nat} {job : Job}
    (member : job ∈ assign simNum numValues i jobs nodes) :
    numValues + 1 + i ≤ job.repNum ∧ job.repNum < numValues + 1 + i + nodes.length := by
  obtain ⟨offset, inside, repNum, _⟩ := assign_numbered simNum numValues member
  omega

theorem assign_tag {i : Int} {jobs : Nat} {nodes : List Nat} {job : Job}
    (member : job ∈ assign simNum numValues i jobs nodes) :
    jobs ≤ job.tag ∧ job.tag < jobs + nodes.length := by
  obtain ⟨offset, inside, _, tag⟩ := assign_numbered simNum numValues member
  omega

theorem assign_nodup (i : Int) (jobs : Nat) (nodes : List Nat) :
    ((assign simNum numValues i jobs nodes).map fun job => (job.simNum, job.repNum)).Nodup := by
  induction nodes generalizing i jobs with
  | nil => exact List.nodup_nil
  | cons node rest ih =>
      simp only [assign, List.map_cons, List.nodup_cons]
      refine ⟨?_, ih (i + 1) (jobs + 1)⟩
      intro member
      obtain ⟨job, later, same⟩ := List.mem_map.mp member
      have bounds := assign_repNum simNum numValues later
      have number := congrArg Prod.snd same
      simp only at number
      omega

theorem allocate_eq (count : Nat) (i : Int) (jobs : Nat) (nodes : List Nat)
    (enough : count ≤ nodes.length) :
    allocate simNum numValues count i jobs nodes =
      .ok (assign simNum numValues i jobs (nodes.take count), nodes.drop count) := by
  induction count generalizing i jobs nodes with
  | zero => simp [allocate, assign]
  | succ count ih =>
      cases nodes with
      | nil => simp at enough
      | cons node rest =>
          simp only [List.length_cons] at enough
          simp only [allocate, ih (i + 1) (jobs + 1) rest (by omega), List.take_succ_cons,
            List.drop_succ_cons, assign]
          rfl

end Assign

theorem transfer_eq (count : Nat) (idleNodes lazyNodes : List Nat)
    (enough : count ≤ idleNodes.length) :
    transfer count idleNodes lazyNodes =
      .ok (idleNodes.drop count, (idleNodes.take count).reverse ++ lazyNodes) := by
  induction count generalizing idleNodes lazyNodes with
  | zero => simp [transfer]
  | succ count ih =>
      cases idleNodes with
      | nil => simp at enough
      | cons node rest =>
          simp only [List.length_cons] at enough
          simp [transfer, ih rest (node :: lazyNodes) (by omega)]

def updated (master : Master) (index : Nat) (experiment : Experiment)
    (idleNodes lazyNodes : List Nat) (jobs : Nat) : Master where
  experiments := master.experiments.set index experiment
  idleNodes := idleNodes
  lazyNodes := lazyNodes
  jobs := jobs

theorem reallocate_eq (master : Master) (index : Nat) (experiment : Experiment)
    (active : experiment.simInitReplications ≤ experiment.simActiveReplications)
    (enough : experiment.simActiveReplications ≤ master.idleNodes.length) :
    master.reallocate index experiment =
      let count := experiment.simActiveReplications + master.lazyNodes.length
      .ok (master.updated index
          { experiment with
            simActiveReplications := count
            simReplications := experiment.simReplications + count }
          (master.idleNodes.drop experiment.simActiveReplications) []
          (master.jobs + count),
        assign (index + 1) experiment.numValues 0 master.jobs
          (master.idleNodes.take experiment.simActiveReplications ++ master.lazyNodes)) := by
  have more : moreJobs experiment master.idleNodes.length master.lazyNodes.length =
      experiment.simActiveReplications + master.lazyNodes.length := by
    rw [moreJobs, if_neg (by omega)]
  have firstCount : sizeSub (experiment.simActiveReplications + master.lazyNodes.length)
      master.lazyNodes.length = experiment.simActiveReplications := by
    rw [sizeSub, if_pos (by omega), Nat.add_sub_cancel]
  have secondStart : ((experiment.simActiveReplications + master.lazyNodes.length : Nat) : Int) -
      master.lazyNodes.length = experiment.simActiveReplications := by
    omega
  have secondCount : (((experiment.simActiveReplications + master.lazyNodes.length : Nat) : Int) -
      experiment.simActiveReplications).toNat = master.lazyNodes.length := by
    omega
  have length : (master.idleNodes.take experiment.simActiveReplications).length =
      experiment.simActiveReplications := by
    rw [List.length_take, Nat.min_eq_left enough]
  have both := assign_append (index + 1) experiment.numValues 0 master.jobs
    (master.idleNodes.take experiment.simActiveReplications) master.lazyNodes
  have total := assign_length (index + 1) experiment.numValues 0 master.jobs
    (master.idleNodes.take experiment.simActiveReplications ++ master.lazyNodes)
  rw [length, zero_add] at both
  rw [List.length_append, length, both, List.length_append] at total
  have firstLength := assign_length (index + 1) experiment.numValues 0 master.jobs
    (master.idleNodes.take experiment.simActiveReplications)
  rw [length] at firstLength
  simp only [reallocate, more, firstCount, secondStart, secondCount]
  rw [allocate_eq _ _ _ _ _ _ enough]
  simp only [bind, Except.bind, firstLength]
  rw [allocate_eq _ _ _ _ _ _ (Nat.le_refl _)]
  simp only [List.take_length, List.drop_length, List.length_append, total, both, updated]

theorem retire_eq (master : Master) (index : Nat) (experiment : Experiment)
    (enough : experiment.simActiveReplications ≤ master.idleNodes.length) :
    master.retire index experiment =
      .ok (master.updated index { experiment with isSignificant := true }
        (master.idleNodes.drop experiment.simActiveReplications)
        ((master.idleNodes.take experiment.simActiveReplications).reverse ++ master.lazyNodes)
        master.jobs, []) := by
  simp only [retire, transfer_eq _ _ _ enough, bind, Except.bind, updated]

end Master

end RlAqs
