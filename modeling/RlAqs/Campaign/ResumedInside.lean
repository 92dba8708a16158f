import RlAqs.Campaign.ParametersMatch
import RlAqs.Campaign.ResumedCore
import RlAqs.Library.Runs

/-! The accesses of a campaign stay inside its tables exactly where the numbering starts at one. -/

namespace RlAqs

def Access.Inside (runs : Nat) : Access → Prop
  | .row index => index < runs
  | .element _ index point => index < runs ∧ index = point

theorem FsUtils.directories_ge (entries : List (Option Bool)) : -1 ≤ directories entries := by
  have fold_ge : ∀ count : Int, -1 ≤ count → -1 ≤ entries.foldl countDirectory count := by
    induction entries with
    | nil => exact fun _ enough => enough
    | cons status rest ih =>
        intro count enough
        rw [List.foldl_cons]
        apply ih
        rcases status with _ | directory
        · exact le_refl _
        · cases directory
          · exact enough
          · show -1 ≤ count + 1
            omega
  exact fold_ge 0 (by omega)

theorem SimulationMPI.alreadyRun_nonneg (args : CampaignArgs) (entries : List (Option Bool)) :
    0 ≤ alreadyRun args entries := by
  have count := FsUtils.directories_ge entries
  rw [alreadyRun]
  split <;> omega

/-! The rows that `assignParams` reads. -/

theorem LhsUtils.index_nonneg_iff (args : DesArgs) (factor : Nat) :
    index args factor ≥ 0 ↔ (marks args).getD factor false = true := by
  rw [index]
  split
  · rename_i marked
    simp only [marked, iff_true, ge_iff_le]
    have present : (marks args)[factor]? = some true := by
      rw [List.getD_eq_getElem?_getD] at marked
      cases found : (marks args)[factor]? with
      | none => simp [found] at marked
      | some mark => simpa [found] using marked
    have counted : 0 < ((marks args).take (factor + 1)).count true := by
      rw [List.count_pos_iff, List.mem_take_iff_getElem]
      obtain ⟨bound, same⟩ := List.getElem?_eq_some_iff.mp present
      exact ⟨factor, by omega, same⟩
    omega
  · rename_i unmarked
    exact ⟨fun sampled => absurd sampled (by omega), fun marked => absurd marked unmarked⟩

namespace SimulationMPI

theorem mem_rows {args : DesArgs} {simNum row : Nat} (member : row ∈ rows args simNum) :
    row = simNum - 1 := by
  obtain ⟨factor, _, read⟩ := List.mem_filterMap.mp member
  split at read
  · exact (Option.some.inj read).symm
  · simp at read

theorem mem_rows_of_index {args : DesArgs} {simNum factor : Nat} (bound : factor < 14)
    (sampled : LhsUtils.index args factor ≥ 0) : simNum - 1 ∈ rows args simNum :=
  List.mem_filterMap.mpr ⟨factor, List.mem_range.mpr bound, if_pos sampled⟩

theorem rows_eq_nil {args : DesArgs} (none : LhsUtils.dimensions args = 0) (simNum : Nat) :
    rows args simNum = [] := by
  apply List.filterMap_eq_nil_iff.mpr
  intro factor _
  rw [if_neg]
  rw [LhsUtils.index_nonneg_iff]
  intro marked
  have absent := List.count_eq_zero.mp none
  rw [List.getD_eq_getElem?_getD] at marked
  cases found : (LhsUtils.marks args)[factor]? with
  | none => simp [found] at marked
  | some mark =>
      have same : mark = true := by simpa [found] using marked
      exact absent (same ▸ List.mem_of_getElem? found)

theorem mem_rows_of_dimensions {args : DesArgs} (some : LhsUtils.dimensions args ≠ 0)
    (simNum : Nat) : simNum - 1 ∈ rows args simNum := by
  have marked : true ∈ LhsUtils.marks args := by
    rw [← List.count_pos_iff]
    exact Nat.pos_of_ne_zero some
  obtain ⟨factor, found⟩ := List.mem_iff_getElem?.mp marked
  obtain ⟨bound, _⟩ := List.getElem?_eq_some_iff.mp found
  apply mem_rows_of_index bound
  rw [LhsUtils.index_nonneg_iff, List.getD_eq_getElem?_getD, found]
  rfl

end SimulationMPI

/-! The jobs of a round go to the experiment of the reply. -/

namespace Master

theorem allocate_simNum {simNum numValues count : Nat} {i : Int} {jobs : Nat} {nodes : List Nat}
    {sent : List Job} {left : List Nat}
    (allocated : allocate simNum numValues count i jobs nodes = .ok (sent, left)) :
    ∀ job ∈ sent, job.simNum = simNum := by
  induction count generalizing i jobs nodes sent left with
  | zero =>
      simp only [allocate, Except.ok.injEq, Prod.mk.injEq] at allocated
      simp [← allocated.1]
  | succ count ih =>
      cases nodes with
      | nil => simp [allocate] at allocated
      | cons destination nodes =>
          cases later : allocate simNum numValues count (i + 1) (jobs + 1) nodes with
          | error fault => simp [allocate, later, bind, Except.bind] at allocated
          | ok result =>
              simp only [allocate, later, bind, Except.bind, Except.ok.injEq,
                Prod.mk.injEq] at allocated
              rw [← allocated.1]
              intro job member
              rcases List.mem_cons.mp member with rfl | inside
              · rfl
              · exact ih later job inside

theorem reallocate_simNum {master next : Master} {index : Nat} {experiment : Experiment}
    {sent : List Job} (done : master.reallocate index experiment = .ok (next, sent)) :
    next.experiments.length = master.experiments.length ∧ ∀ job ∈ sent, job.simNum = index + 1 := by
  unfold reallocate at done
  cases first : allocate (index + 1) experiment.numValues
      (sizeSub (moreJobs experiment master.idleNodes.length master.lazyNodes.length)
        master.lazyNodes.length) 0 master.jobs master.idleNodes with
  | error fault => simp [first, bind, Except.bind] at done
  | ok idle =>
      simp only [first, bind, Except.bind] at done
      split at done
      · simp at done
      · rename_i lazy second
        simp only [Except.ok.injEq, Prod.mk.injEq] at done
        rw [← done.1, ← done.2]
        refine ⟨List.length_set, ?_⟩
        intro job member
        rcases List.mem_append.mp member with own | own
        · exact allocate_simNum first job own
        · exact allocate_simNum second job own

theorem retire_simNum {master next : Master} {index : Nat} {experiment : Experiment}
    {sent : List Job} (done : master.retire index experiment = .ok (next, sent)) :
    next.experiments.length = master.experiments.length ∧ sent = [] := by
  unfold retire at done
  cases moved : transfer experiment.simActiveReplications master.idleNodes master.lazyNodes with
  | error fault => simp [moved, bind, Except.bind] at done
  | ok nodes =>
      simp only [moved, bind, Except.bind, Except.ok.injEq, Prod.mk.injEq] at done
      rw [← done.1, ← done.2]
      exact ⟨List.length_set, rfl⟩

theorem receive_simNum {master next : Master} {source index : Nat} {isConfident : Bool}
    {sent : List Job} (received : master.receive source (index + 1) isConfident = .ok (next, sent)) :
    next.experiments.length = master.experiments.length ∧ ∀ job ∈ sent, job.simNum = index + 1 := by
  cases found : master.experiments[index]? with
  | none => simp [receive, found] at received
  | some experiment =>
      simp only [receive, found] at received
      split at received
      · split at received
        · obtain ⟨kept, none⟩ := retire_simNum received
          rw [List.length_set] at kept
          exact ⟨kept, by simp [none]⟩
        · have kept := reallocate_simNum received
          rwa [List.length_set] at kept
      · simp only [Except.ok.injEq, Prod.mk.injEq] at received
        simp [← received.1, ← received.2]

theorem setup_length (runs initReplications nodes : Nat) :
    (setup runs initReplications nodes).length = runs := by
  have distributed : ∀ (count : Nat) (experiments : List Experiment),
      (distribute runs count experiments).length = experiments.length := by
    intro count experiments
    induction count with
    | zero => rfl
    | succ count ih =>
        rw [distribute, List.range_succ, List.foldl_append, List.foldl_cons, List.foldl_nil,
          List.length_modify]
        exact ih
  rw [setup, distributed, List.length_replicate]

end Master

open SimulationMPI

namespace ResumedCampaign

/-! The set-up. -/

section Prepare

variable {args : DesArgs} {alreadyRun : Int} {nodes : Nat}

theorem prepare_sent (nonneg : 0 ≤ alreadyRun) {experiments : List Experiment} {i jobs : Nat}
    {job : Job} {point : Nat}
    (member : (job, point) ∈ (prepare args alreadyRun nodes experiments i jobs).sent) :
    point < i + experiments.length ∧ (job.simNum : Int) = point + 1 + alreadyRun := by
  induction experiments generalizing i jobs with
  | nil => simp [prepare] at member
  | cons experiment rest ih =>
      simp only [prepare] at member
      split at member
      · rcases List.mem_append.mp member with own | later
        · obtain ⟨new, batch, same⟩ := List.mem_map.mp own
          obtain ⟨position, _, rfl⟩ := List.mem_map.mp batch
          obtain ⟨rfl, rfl⟩ := Prod.mk.inj same
          refine ⟨by simp, ?_⟩
          simp only
          omega
        · obtain ⟨bound, number⟩ := ih later
          exact ⟨by rw [List.length_cons]; omega, number⟩
      · simp at member

theorem prepare_accesses {experiments : List Experiment} {i jobs : Nat} {access : Access}
    (member : access ∈ (prepare args alreadyRun nodes experiments i jobs).accesses) :
    ∃ point < i + experiments.length, ∃ row ∈ rows args (point + 1 + alreadyRun).toNat,
      access = .row row := by
  induction experiments generalizing i jobs with
  | nil => simp [prepare] at member
  | cons experiment rest ih =>
      have own : access ∈ (rows args (i + 1 + alreadyRun).toNat).map Access.row →
          ∃ point < i + (experiment :: rest).length,
            ∃ row ∈ rows args (point + 1 + alreadyRun).toNat, access = .row row := by
        intro inside
        obtain ⟨row, read, rfl⟩ := List.mem_map.mp inside
        exact ⟨i, by simp, row, read, rfl⟩
      simp only [prepare] at member
      split at member
      · rcases List.mem_append.mp member with here | later
        · exact own here
        · obtain ⟨point, bound, found⟩ := ih later
          exact ⟨point, by rw [List.length_cons]; omega, found⟩
      · exact own member

theorem mem_prepare_accesses {experiments : List Experiment} {i jobs point row : Nat}
    (through : (prepare args alreadyRun nodes experiments i jobs).aborted = false)
    (lower : i ≤ point) (upper : point < i + experiments.length)
    (read : row ∈ rows args (point + 1 + alreadyRun).toNat) :
    Access.row row ∈ (prepare args alreadyRun nodes experiments i jobs).accesses := by
  induction experiments generalizing i jobs with
  | nil => simp at upper; omega
  | cons experiment rest ih =>
      simp only [prepare] at through ⊢
      split at through
      · rename_i reached
        rw [if_pos reached]
        apply List.mem_append.mpr
        by_cases same : point = i
        · rw [same] at read
          exact Or.inl (List.mem_map_of_mem read)
        · rw [List.length_cons] at upper
          exact Or.inr (ih through (by omega) (by omega))
      · simp at through

end Prepare

def Inside (runs : Nat) (campaign : ResumedCampaign) : Prop :=
  ∀ access ∈ campaign.accesses, access.Inside runs

structure Replied (args : DesArgs) (campaign : ResumedCampaign) (reply : Reply) (job : Job)
    (point : Nat) (next : ResumedCampaign) : Prop where
  found : (job, point) ∈ campaign.inFlight
  accesses : next.accesses = campaign.accesses ++
    (touched campaign.master.experiments[toUnsigned 32 (toUnsigned 16 job.simNum - 1)]?
      reply.isConfident).map
        (fun table => Access.element table (toUnsigned 32 (toUnsigned 16 job.simNum - 1)) point) ++
    (rowsAgain args (toUnsigned 16 job.simNum) reply.isConfident
      (campaign.master.receive reply.source (toUnsigned 16 job.simNum)
        reply.isConfident)).map Access.row
  outcome : (next.master = campaign.master ∧ next.inFlight = campaign.inFlight) ∨
    ∃ sent, campaign.master.receive reply.source (toUnsigned 16 job.simNum) reply.isConfident =
        .ok (next.master, sent) ∧
      next.inFlight = campaign.inFlight.erase (job, point) ++ sent.map fun job => (job, point)

theorem step_cases {args : DesArgs} {campaign next : ResumedCampaign} {reply : Reply}
    (stepped : step args campaign reply = some next) :
    ∃ job point, Replied args campaign reply job point next := by
  simp only [step] at stepped
  split at stepped
  · simp at stepped
  · cases found : campaign.inFlight.find? fun sent => sent.1.destination = reply.source with
    | none => simp [found] at stepped
    | some entry =>
        obtain ⟨job, point⟩ := entry
        simp only [found] at stepped
        refine ⟨job, point, ?_⟩
        cases received : campaign.master.receive reply.source (toUnsigned 16 job.simNum)
            reply.isConfident with
        | error fault =>
            simp only [received, Option.some.injEq] at stepped
            subst stepped
            refine ⟨List.mem_of_find?_eq_some found, ?_, Or.inl ⟨rfl, rfl⟩⟩
            rw [received]
        | ok result =>
            obtain ⟨master, sent⟩ := result
            simp only [received, Option.some.injEq] at stepped
            subst stepped
            refine ⟨List.mem_of_find?_eq_some found, ?_, Or.inr ⟨sent, received, rfl⟩⟩
            rw [received]

theorem accesses_subset {args : DesArgs} {campaign final : ResumedCampaign}
    {replies : List Reply} (ran : Runs.run (step args) campaign replies = some final) :
    campaign.accesses ⊆ final.accesses := by
  refine Runs.run_invariant (fun later => campaign.accesses ⊆ later.accesses) ?_
    (List.Subset.refl _) ran
  intro before reply after subset stepped
  obtain ⟨job, point, replied⟩ := step_cases stepped
  rw [replied.accesses, List.append_assoc]
  exact List.Subset.trans subset (List.subset_append_left _ _)

structure Kept (runs : Nat) (campaign : ResumedCampaign) : Prop where
  length : campaign.master.experiments.length = runs
  numbered : ∀ job point, (job, point) ∈ campaign.inFlight →
    point < runs ∧ toUnsigned 16 job.simNum = point + 1
  inside : campaign.Inside runs

theorem toUnsigned_of_lt {bits number : Nat} (small : number < 2 ^ bits) :
    toUnsigned bits number = number := by
  have bound : (number : Int) < 2 ^ bits := by exact_mod_cast small
  rw [toUnsigned, Int.emod_eq_of_lt (by omega) bound]
  rfl

theorem rowsAgain_eq {args : DesArgs} {master : Master} {source point row : Nat}
    {isConfident : Bool}
    (member : row ∈ rowsAgain args (point + 1) isConfident
      (master.receive source (point + 1) isConfident)) : row = point := by
  cases received : master.receive source (point + 1) isConfident with
  | error fault =>
      rw [received] at member
      cases fault with
      | emptyNodes =>
          simp only [rowsAgain] at member
          split at member
          · simp at member
          · exact mem_rows member
      | noSuchExperiment => simp [rowsAgain] at member
  | ok result =>
      obtain ⟨next, sent⟩ := result
      simp only [received, rowsAgain, List.mem_flatMap] at member
      obtain ⟨job, inside, read⟩ := member
      rw [(Master.receive_simNum received).2 job inside] at read
      exact mem_rows read

theorem Kept.step {args : DesArgs} {runs : Nat} (small : runs < 2 ^ 16)
    {campaign next : ResumedCampaign} {reply : Reply} (kept : campaign.Kept runs)
    (stepped : step args campaign reply = some next) : next.Kept runs := by
  obtain ⟨job, point, replied⟩ := step_cases stepped
  obtain ⟨bound, number⟩ := kept.numbered job point replied.found
  have index : toUnsigned 32 ((toUnsigned 16 job.simNum : Nat) - 1) = point := by
    rw [number, Nat.cast_add, Nat.cast_one, add_sub_cancel_right]
    exact toUnsigned_of_lt (by omega)
  have accesses := replied.accesses
  rw [index, number] at accesses
  have inside : next.Inside runs := by
    intro access member
    rw [accesses] at member
    rcases List.mem_append.mp member with before | again
    · rcases List.mem_append.mp before with old | used
      · exact kept.inside access old
      · obtain ⟨table, _, rfl⟩ := List.mem_map.mp used
        exact ⟨bound, rfl⟩
    · obtain ⟨row, read, rfl⟩ := List.mem_map.mp again
      exact (rowsAgain_eq read).trans_lt bound
  rcases replied.outcome with ⟨master, inFlight⟩ | ⟨sent, received, inFlight⟩
  · exact ⟨master ▸ kept.length, inFlight ▸ kept.numbered, inside⟩
  · rw [number] at received
    obtain ⟨length, own⟩ := Master.receive_simNum received
    refine ⟨length.trans kept.length, ?_, inside⟩
    intro job' point' member
    rw [inFlight] at member
    rcases List.mem_append.mp member with old | new
    · exact kept.numbered job' point' (List.mem_of_mem_erase old)
    · obtain ⟨fresh, issued, same⟩ := List.mem_map.mp new
      obtain ⟨rfl, rfl⟩ := Prod.mk.inj same
      refine ⟨bound, ?_⟩
      rw [own fresh issued]
      exact toUnsigned_of_lt (by omega)

section Start

variable {args : CampaignArgs} {entries : List (Option Bool)} {nodes : Nat}
  {initial : ResumedCampaign}

theorem start_spec (started : start args entries nodes = some initial) :
    runs args < 2 ^ 16 ∧ initial.master.experiments.length = runs args ∧
      (∀ job point, (job, point) ∈ initial.inFlight →
        point < runs args ∧ (job.simNum : Int) = point + 1 + alreadyRun args entries) ∧
      (∀ access ∈ initial.accesses, ∃ point < runs args,
        ∃ row ∈ rows args.toDesArgs (point + 1 + alreadyRun args entries).toNat,
          access = .row row) ∧
      (initial.aborted = false → ∀ point < runs args,
        ∀ row ∈ rows args.toDesArgs (point + 1 + alreadyRun args entries).toNat,
          Access.row row ∈ initial.accesses) := by
  rw [start] at started
  split at started
  · rename_i small
    have length := Master.setup_length (runs args) args.initReplications nodes
    obtain rfl := Option.some.inj started
    refine ⟨small, length, ?_, ?_, ?_⟩
    · intro job point member
      have sent := prepare_sent (alreadyRun_nonneg args entries) member
      rwa [length, Nat.zero_add] at sent
    · intro access member
      have read := prepare_accesses member
      rwa [length, Nat.zero_add] at read
    · intro through point bound row read
      refine mem_prepare_accesses through (Nat.zero_le _) ?_ read
      rwa [length, Nat.zero_add]
  · simp at started

/-- Nothing is looked up under a shifted number: at the set-up the rows, and then, with the
worker's 16 bits of the number, what a reply leads to. -/
def Unshifted (args : CampaignArgs) (entries : List (Option Bool)) (replies : List Reply) : Prop :=
  (alreadyRun args entries = 0 ∨ LhsUtils.dimensions args.toDesArgs = 0 ∨ runs args = 0) ∧
    (2 ^ 16 ∣ alreadyRun args entries ∨ replies = [])

theorem start_inside (started : start args entries nodes = some initial)
    (unshifted : alreadyRun args entries = 0 ∨ LhsUtils.dimensions args.toDesArgs = 0 ∨
      runs args = 0) : initial.Inside (runs args) := by
  obtain ⟨_, _, _, accesses, _⟩ := start_spec started
  intro access member
  obtain ⟨point, bound, row, read, rfl⟩ := accesses access member
  rcases unshifted with none | unsampled | noRuns
  · have own := mem_rows read
    simp only [Access.Inside]
    omega
  · rw [rows_eq_nil unsampled] at read
    simp at read
  · omega

theorem start_kept (started : start args entries nodes = some initial)
    (inside : initial.Inside (runs args)) (aligned : 2 ^ 16 ∣ alreadyRun args entries) :
    initial.Kept (runs args) := by
  obtain ⟨small, length, sent, _, _⟩ := start_spec started
  refine ⟨length, ?_, inside⟩
  intro job point member
  obtain ⟨bound, number⟩ := sent job point member
  refine ⟨bound, ?_⟩
  obtain ⟨shift, multiple⟩ := aligned
  rw [toUnsigned, number, multiple]
  omega

theorem unshifted_of_inside (started : start args entries nodes = some initial)
    (through : initial.aborted = false) {replies : List Reply} {campaign : ResumedCampaign}
    (ran : Runs.run (step args.toDesArgs) initial replies = some campaign)
    (inside : campaign.Inside (runs args)) : Unshifted args entries replies := by
  obtain ⟨small, _, sent, _, accesses⟩ := start_spec started
  have nonneg := alreadyRun_nonneg args entries
  constructor
  · by_contra shifted
    obtain ⟨moved, sampled, someRuns⟩ := not_or.mp shifted |>.imp_right not_or.mp
    -- The last design point has the row furthest outside.
    have last := inside _ (accesses_subset ran (accesses through (runs args - 1) (by omega) _
      (mem_rows_of_dimensions sampled _)))
    simp only [Access.Inside] at last
    omega
  · cases replies with
    | nil => exact Or.inr rfl
    | cons reply rest =>
        left
        rw [Runs.run_cons, Option.bind_eq_some_iff] at ran
        obtain ⟨next, stepped, later⟩ := ran
        obtain ⟨job, point, replied⟩ := step_cases stepped
        obtain ⟨bound, number⟩ := sent job point replied.found
        have used : Access.element .avgDelays
            (toUnsigned 32 ((toUnsigned 16 job.simNum : Nat) - 1)) point ∈ next.accesses := by
          rw [replied.accesses]
          simp [touched]
        obtain ⟨_, own⟩ := inside _ (accesses_subset later used)
        simp only [toUnsigned] at own
        omega

/-- All accesses of a campaign are inside, and those for a reply at the design point it is for,
if and only if the number of simulations found does not shift what the campaign looks up. -/
theorem run_inside_iff (args : CampaignArgs) (entries : List (Option Bool)) (nodes : Nat)
    (replies : List Reply) {initial campaign : ResumedCampaign}
    (started : start args entries nodes = some initial)
    (ran : Runs.run (step args.toDesArgs) initial replies = some campaign) :
    (Unshifted args entries replies → campaign.Inside (runs args)) ∧
      (initial.aborted = false → campaign.Inside (runs args) →
        Unshifted args entries replies) := by
  refine ⟨?_, fun through inside => unshifted_of_inside started through ran inside⟩
  rintro ⟨unshifted, aligned | none⟩
  · have small := (start_spec started).1
    have first := start_inside started unshifted
    exact (Runs.run_invariant _ (fun _ _ _ kept stepped => Kept.step small kept stepped)
      (start_kept started first aligned) ran).inside
  · subst none
    obtain rfl := Option.some.inj ran
    exact start_inside started unshifted

def oneRun (addSim : String) : CampaignArgs :=
  { wplArgs with lhsOptimal := false, simulations := 1, initReplications := 1, addSim := addSim }

theorem run_inside_iff_plain :
    (∃ initial campaign, start (oneRun "") [] 2 = some initial ∧
      Runs.run (step (oneRun "").toDesArgs) initial [⟨1, true⟩] = some campaign ∧
      campaign.Inside 1) ∧
    ∃ initial campaign, start (oneRun "results") [some true, none] 2 = some initial ∧
      Runs.run (step (oneRun "results").toDesArgs) initial [⟨1, true⟩] = some campaign ∧
      campaign.Inside 1 := by
  have unshifted : Unshifted (oneRun "") [] [⟨1, true⟩] := ⟨Or.inl rfl, Or.inl (by decide)⟩
  have unreadable : Unshifted (oneRun "results") [some true, none] [⟨1, true⟩] :=
    ⟨Or.inl rfl, Or.inl (by decide)⟩
  exact ⟨⟨_, _, rfl, rfl, (run_inside_iff (oneRun "") [] 2 [⟨1, true⟩] rfl rfl).1 unshifted⟩,
    _, _, rfl, rfl,
    (run_inside_iff (oneRun "results") [some true, none] 2 [⟨1, true⟩] rfl rfl).1 unreadable⟩

/-- With nothing in the directory the count starts at one: the only design point is row one of a
design with one row, and its reply is the second element of tables of one. -/
theorem resumed_outside :
    ((start (oneRun "results") [] 2).bind fun initial =>
        Runs.run (step (oneRun "results").toDesArgs) initial [⟨1, true⟩]).map
          (fun campaign => campaign.accesses) =
        some [.row 1, .element .avgDelays 1 0, .element .avgNumEvents 1 0,
          .element .totalQs 1 0, .element .simReplications 1 0] ∧
      ¬∀ (args : CampaignArgs) (entries : List (Option Bool)) (nodes : Nat) (replies : List Reply)
        (initial campaign : ResumedCampaign), start args entries nodes = some initial →
          Runs.run (step args.toDesArgs) initial replies = some campaign →
          campaign.Inside (runs args) := by
  have accesses : ((start (oneRun "results") [] 2).bind fun initial =>
      Runs.run (step (oneRun "results").toDesArgs) initial [⟨1, true⟩]).map
        (fun campaign => campaign.accesses) =
      some [.row 1, .element .avgDelays 1 0, .element .avgNumEvents 1 0,
        .element .totalQs 1 0, .element .simReplications 1 0] := by decide +kernel
  refine ⟨accesses, fun always => ?_⟩
  obtain ⟨campaign, reached, same⟩ := Option.map_eq_some_iff.mp accesses
  obtain ⟨initial, started, ran⟩ := Option.bind_eq_some_iff.mp reached
  have inside := always _ _ _ _ _ _ started ran (.row 1) (by rw [same]; exact List.mem_cons_self)
  simp [Access.Inside, runs, oneRun] at inside

end Start

end ResumedCampaign

end RlAqs
