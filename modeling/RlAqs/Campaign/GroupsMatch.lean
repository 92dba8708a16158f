import RlAqs.Campaign.CampaignSafe

/-!
The colours by which `main` splits the workers into groups, against the first jobs of the
master. Surplus nodes go to the simulations one after the other, but the jobs are sent to
consecutive ranks, so that the groups fit the jobs only where no node is left over.
-/

namespace RlAqs

namespace Groups

def runs (optimal : Bool) (simulations : Nat) : Nat :=
  if optimal then 2 ^ simulations + 1 else simulations

/-- `main` keeps the numbers of runs and of nodes in 16 bits; `none` is a zero divisor. -/
def colour (optimal : Bool) (simulations initReplications nodes rank : Nat) : Option Nat :=
  if rank ≠ 0 ∧ initReplications = 0 then none
  else
    let colour := if rank = 0 then 0 else (rank - 1) / initReplications + 1
    let runs := runs optimal simulations % 2 ^ 16
    let simNodes := runs * initReplications % 2 ^ 16
    let freeNodes := (((nodes : Int) - (simNodes + 1)) % 2 ^ 16).toNat
    if freeNodes > 0 ∧ rank ≥ simNodes then
      if simulations = 0 then none
      else
        let colour := (rank - simNodes) % simulations
        some (if colour = 0 then runs else colour)
    else some colour

def SameColour (optimal : Bool) (simulations initReplications nodes first second : Nat) : Prop :=
  ∃ group, colour optimal simulations initReplications nodes first = some group ∧
    colour optimal simulations initReplications nodes second = some group

def SameSimulation (runs initReplications nodes first second : Nat) : Prop :=
  ∃ job ∈ (Master.start runs initReplications nodes).2,
    ∃ other ∈ (Master.start runs initReplications nodes).2,
      job.destination = first ∧ other.destination = second ∧ job.simNum = other.simNum

/-! The jobs. -/

theorem distribute_first {runs : Nat} (initReplications freeNodes : Nat)
    (rest : List Experiment) :
    ∃ experiment others,
      Master.distribute runs (freeNodes + 1) (Experiment.fresh initReplications :: rest) =
        experiment :: others ∧ initReplications + 1 ≤ experiment.simInitReplications := by
  induction freeNodes with
  | zero =>
      refine ⟨(Experiment.fresh initReplications).grow, rest, ?_, Nat.le_refl _⟩
      simp [Master.distribute]
  | succ freeNodes ih =>
      obtain ⟨experiment, others, before, grown⟩ := ih
      have step : Master.distribute runs (freeNodes + 1 + 1)
          (Experiment.fresh initReplications :: rest) =
            (experiment :: others).modify ((freeNodes + 1) % runs) .grow := by
        rw [← before]
        simp only [Master.distribute, List.range_succ, List.foldl_append, List.foldl_cons,
          List.foldl_nil]
      rw [step]
      cases (freeNodes + 1) % runs with
      | zero =>
          refine ⟨experiment.grow, others, List.modify_zero_cons .., ?_⟩
          simp only [Experiment.grow]
          omega
      | succ index => exact ⟨experiment, _, List.modify_succ_cons .., grown⟩

theorem initialJobs_replicate {count initReplications simNum jobs : Nat}
    (positive : 0 < initReplications) {job : Job}
    (member : job ∈ Master.initialJobs
      (List.replicate count (Experiment.fresh initReplications)) simNum jobs) :
    jobs ≤ job.destination ∧ job.simNum = simNum + (job.destination - jobs) / initReplications := by
  induction count generalizing simNum jobs with
  | zero => cases member
  | succ count ih =>
      rw [List.replicate_succ, Master.initialJobs] at member
      rcases List.mem_append.mp member with first | later
      · obtain ⟨i, inside, rfl⟩ := List.mem_map.mp first
        have bound : i < initReplications := List.mem_range.mp inside
        refine ⟨Nat.le_add_right jobs i, ?_⟩
        rw [Nat.add_sub_cancel_left, Nat.div_eq_of_lt bound, Nat.add_zero]
      · have size : (Experiment.fresh initReplications).simInitReplications = initReplications := rfl
        obtain ⟨above, number⟩ := ih later
        rw [size] at above number
        refine ⟨by omega, ?_⟩
        have split : job.destination - jobs =
            job.destination - (jobs + initReplications) + initReplications := by omega
        rw [number, split, Nat.add_div_right _ positive]
        omega

/-! The colours, where nothing overflows. -/

section Sizes

variable {optimal : Bool} {simulations initReplications nodes : Nat}
  (someRuns : 1 ≤ runs optimal simulations) (someReplications : 1 ≤ initReplications)
  (enough : runs optimal simulations * initReplications + 1 ≤ nodes) (small : nodes < 65536)
include someReplications enough small

theorem runs_small : runs optimal simulations < 65536 := by
  have most := Nat.le_mul_of_pos_right (runs optimal simulations) someReplications
  omega

theorem colour_eq (rank : Nat) :
    colour optimal simulations initReplications nodes rank =
      if runs optimal simulations * initReplications + 1 < nodes ∧
          runs optimal simulations * initReplications ≤ rank then
        if simulations = 0 then none
        else some (if (rank - runs optimal simulations * initReplications) % simulations = 0 then
          runs optimal simulations
          else (rank - runs optimal simulations * initReplications) % simulations)
      else some (if rank = 0 then 0 else (rank - 1) / initReplications + 1) := by
  have few := runs_small someReplications enough small
  have divisor : ¬(rank ≠ 0 ∧ initReplications = 0) := by omega
  have free : (((nodes : Int) - ((runs optimal simulations * initReplications : Nat) + 1)) %
      2 ^ 16).toNat = nodes - (runs optimal simulations * initReplications + 1) := by
    rw [Int.emod_eq_of_lt]
    · omega
    · omega
    · omega
  have whole : runs optimal simulations * initReplications % 2 ^ 16 =
      runs optimal simulations * initReplications := Nat.mod_eq_of_lt (by omega)
  have count : runs optimal simulations % 2 ^ 16 = runs optimal simulations :=
    Nat.mod_eq_of_lt (by omega)
  rw [colour, if_neg divisor]
  simp only [count, whole, free, gt_iff_lt, ge_iff_le, Nat.sub_pos_iff_lt]

include someRuns

omit someReplications in
theorem exists_job {rank : Nat} (positive : 1 ≤ rank) (bound : rank < nodes) :
    ∃ job ∈ (Master.start (runs optimal simulations) initReplications nodes).2,
      job.destination = rank := by
  obtain ⟨_, _, total⟩ := Master.setup_spec initReplications someRuns enough small
  have destinations := Master.initialJobs_destinations
    (Master.setup (runs optimal simulations) initReplications nodes) 1 1
  rw [total] at destinations
  have member : rank ∈ List.range' 1 (nodes - 1) := by
    rw [List.mem_range'_1]
    omega
  rw [← destinations] at member
  exact List.mem_map.mp member

omit someReplications in
theorem sameSimulation_of_one (one : runs optimal simulations = 1) {first second : Nat}
    (first_low : 1 ≤ first) (first_high : first < nodes) (second_low : 1 ≤ second)
    (second_high : second < nodes) :
    SameSimulation (runs optimal simulations) initReplications nodes first second := by
  obtain ⟨job, sent, destination⟩ :=
    exists_job someRuns enough small first_low first_high
  obtain ⟨other, sent', destination'⟩ :=
    exists_job someRuns enough small second_low second_high
  refine ⟨job, sent, other, sent', destination, destination', ?_⟩
  obtain ⟨length, _⟩ := Master.setup_spec initReplications someRuns enough small
  obtain ⟨index, bound, number, _⟩ := Master.initialJobs_spec sent
  obtain ⟨index', bound', number', _⟩ := Master.initialJobs_spec sent'
  omega

theorem sameSimulation_iff_of_fit (fit : nodes = runs optimal simulations * initReplications + 1)
    {first second : Nat} (first_low : 1 ≤ first) (first_high : first < nodes)
    (second_low : 1 ≤ second) (second_high : second < nodes) :
    SameSimulation (runs optimal simulations) initReplications nodes first second ↔
      (first - 1) / initReplications = (second - 1) / initReplications := by
  have none_free : Master.freeNodes (runs optimal simulations) initReplications nodes = 0 := by
    rw [Master.freeNodes, fit]
    simp
  have setup : Master.setup (runs optimal simulations) initReplications nodes =
      List.replicate (runs optimal simulations) (Experiment.fresh initReplications) := by
    rw [Master.setup, none_free]
    rfl
  have number : ∀ job ∈ (Master.start (runs optimal simulations) initReplications nodes).2,
      job.simNum = 1 + (job.destination - 1) / initReplications := by
    intro job sent
    simp only [Master.start, setup] at sent
    exact (initialJobs_replicate someReplications sent).2
  constructor
  · rintro ⟨job, sent, other, sent', rfl, rfl, same⟩
    have left := number job sent
    have right := number other sent'
    omega
  · intro same
    obtain ⟨job, sent, destination⟩ :=
      exists_job someRuns enough small first_low first_high
    obtain ⟨other, sent', destination'⟩ :=
      exists_job someRuns enough small second_low second_high
    refine ⟨job, sent, other, sent', destination, destination', ?_⟩
    rw [number job sent, number other sent', destination, destination', same]

omit someReplications enough in
/-- A surplus node makes the first batch reach into the second group. -/
theorem sameSimulation_of_free (free : runs optimal simulations * initReplications + 1 < nodes) :
    SameSimulation (runs optimal simulations) initReplications nodes 1 (initReplications + 1) := by
  obtain ⟨surplus, size⟩ : ∃ surplus,
      Master.freeNodes (runs optimal simulations) initReplications nodes = surplus + 1 := by
    refine ⟨nodes - (runs optimal simulations * initReplications + 1) - 1, ?_⟩
    rw [Master.freeNodes, Int.emod_eq_of_lt]
    · omega
    · omega
    · omega
  obtain ⟨rest, replicated⟩ : ∃ rest, List.replicate (runs optimal simulations)
      (Experiment.fresh initReplications) = Experiment.fresh initReplications :: rest := by
    refine ⟨List.replicate (runs optimal simulations - 1) (Experiment.fresh initReplications), ?_⟩
    rw [← List.replicate_succ, Nat.sub_add_cancel someRuns]
  obtain ⟨experiment, others, setup, grown⟩ :=
    @distribute_first (runs optimal simulations) initReplications surplus rest
  have sent : ∀ i ≤ initReplications, (⟨1 + i, 1 + i, 1, i + 1⟩ : Job) ∈
      (Master.start (runs optimal simulations) initReplications nodes).2 := by
    intro i small
    simp only [Master.start, Master.setup, size, replicated, setup, Master.initialJobs]
    apply List.mem_append_left
    exact List.mem_map.mpr ⟨i, List.mem_range.mpr (by omega), rfl⟩
  exact ⟨_, sent 0 (Nat.zero_le _), _, sent initReplications (Nat.le_refl _), rfl,
    Nat.add_comm 1 initReplications, rfl⟩

end Sizes

/-- The groups are the simulations exactly when there is no surplus node or only one run. -/
theorem groups_match_iff (optimal : Bool) (simulations initReplications nodes : Nat)
    (someRuns : 1 ≤ runs optimal simulations) (someReplications : 1 ≤ initReplications)
    (enough : runs optimal simulations * initReplications + 1 ≤ nodes) (small : nodes < 65536) :
    (∀ first second, 1 ≤ first → first < nodes → 1 ≤ second → second < nodes →
      (SameColour optimal simulations initReplications nodes first second ↔
        SameSimulation (runs optimal simulations) initReplications nodes first second)) ↔
      nodes = runs optimal simulations * initReplications + 1 ∨ runs optimal simulations = 1 := by
  have colours := fun rank => colour_eq someReplications enough small rank
  constructor
  · intro agree
    by_contra mismatch
    rw [not_or] at mismatch
    have free : runs optimal simulations * initReplications + 1 < nodes := by omega
    have two : 2 * initReplications ≤ runs optimal simulations * initReplications :=
      Nat.mul_le_mul_right initReplications (by omega)
    obtain ⟨group, left, right⟩ := (agree 1 (initReplications + 1) (by omega) (by omega)
      (by omega) (by omega)).mpr (sameSimulation_of_free someRuns small free)
    rw [colours, if_neg (by omega), if_neg (by omega), Nat.sub_self, Nat.zero_div,
      Option.some.injEq] at left
    rw [colours, ← left] at right
    by_cases last : runs optimal simulations * initReplications ≤ initReplications + 1
    · have here : initReplications + 1 - runs optimal simulations * initReplications = 0 := by omega
      rw [if_pos ⟨free, last⟩, here, Nat.zero_mod, if_pos rfl] at right
      split at right
      · cases right
      · rw [Option.some.injEq] at right
        omega
    · rw [if_neg fun both => last both.2, if_neg (by omega), Nat.add_sub_cancel,
        Nat.div_self someReplications] at right
      cases right
  · rintro (fit | one) first second first_low first_high second_low second_high
    · rw [sameSimulation_iff_of_fit someRuns someReplications enough small fit first_low first_high
        second_low second_high]
      have no_surplus : ¬runs optimal simulations * initReplications + 1 < nodes := by omega
      have plain : ∀ rank, 1 ≤ rank → colour optimal simulations initReplications nodes rank =
          some ((rank - 1) / initReplications + 1) := by
        intro rank low
        rw [colours, if_neg fun both => no_surplus both.1, if_neg (by omega)]
      simp only [SameColour, plain first first_low, plain second second_low, Option.some.injEq]
      constructor
      · rintro ⟨group, left, right⟩
        omega
      · intro same
        exact ⟨_, rfl, by rw [same]⟩
    · have same := sameSimulation_of_one someRuns enough small one first_low
        first_high second_low second_high
      have single : simulations = 1 := by
        cases optimal with
        | false => exact one
        | true =>
            have positive := Nat.two_pow_pos simulations
            simp only [runs, if_true] at one
            omega
      have all : ∀ rank, 1 ≤ rank → rank < nodes →
          colour optimal simulations initReplications nodes rank = some 1 := by
        intro rank low high
        rw [colours, one, single]
        split
        · rw [if_neg one_ne_zero, Nat.mod_one, if_pos rfl]
        · rw [if_neg (by omega), Nat.div_eq_of_lt (by omega)]
      constructor
      · intro _
        exact same
      · intro _
        exact ⟨1, all first first_low first_high, all second second_low second_high⟩

theorem groups_match_iff_exact :
    SameColour false 3 2 7 3 4 ↔ SameSimulation 3 2 7 3 4 :=
  (groups_match_iff false 3 2 7 (by decide) (by decide) (by decide) (by decide)).mpr
    (Or.inl (by decide)) 3 4 (by decide) (by decide) (by decide) (by decide)

/-- With four nodes for two runs the workers 1 and 2 share a simulation and not a colour. -/
theorem groups_differ :
    ¬∀ first second, 1 ≤ first → first < 4 → 1 ≤ second → second < 4 →
      (SameColour false 2 1 4 first second ↔ SameSimulation 2 1 4 first second) := by
  intro agree
  obtain ⟨group, left, right⟩ := (agree 1 2 (by decide) (by decide) (by decide)
    (by decide)).mpr ⟨⟨1, 1, 1, 1⟩, by decide, ⟨2, 2, 1, 2⟩, by decide, by decide⟩
  have first : colour false 2 1 4 1 = some 1 := by decide
  have second : colour false 2 1 4 2 = some 2 := by decide
  rw [first, Option.some.injEq] at left
  rw [second, ← left] at right
  cases right

end Groups

end RlAqs
