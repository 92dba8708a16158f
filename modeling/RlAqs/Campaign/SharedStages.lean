import RlAqs.Campaign.SharedCore
import Mathlib.Data.List.MinMax
import Mathlib.Tactic.Tauto

/-!
The stages that the file of a group goes through, with the phases its members can be in, when no
other group has the same file.
-/

namespace RlAqs

namespace Layout

variable {F : Type*} {layout : Layout F} {rank other : Nat}

/-- The members of a group share a file, and none that is not there is shared by two groups. -/
structure Separate {α : Type*} (layout : Layout F) (disk : F → File α) : Prop where
  together : ∀ rank ∈ layout.workers, ∀ other ∈ layout.workers,
    layout.colour rank = layout.colour other → layout.file rank = layout.file other
  apart : ∀ rank ∈ layout.workers, ∀ other ∈ layout.workers,
    disk (layout.file rank) = .absent → layout.file rank = layout.file other →
      layout.colour rank = layout.colour other
  whole : ∀ rank ∈ layout.workers, disk (layout.file rank) ≠ .begun

theorem mem_group : other ∈ layout.group rank ↔
    other ∈ layout.workers ∧ layout.colour other = layout.colour rank := by
  simp [group]

theorem exists_minRank (member : rank ∈ layout.workers) :
    ∃ least ∈ layout.group rank, layout.IsMinRank least := by
  have inGroup : rank ∈ layout.group rank := mem_group.mpr ⟨member, rfl⟩
  cases least : (layout.group rank).argmin id with
  | none =>
      rw [List.argmin_eq_none.mp least] at inGroup
      cases inGroup
  | some least' =>
      have inside := List.argmin_mem least
      refine ⟨least', inside, fun other member => ?_⟩
      have same : layout.group least' = layout.group rank := by
        rw [group, (mem_group.mp inside).2]
        rfl
      rw [same] at member
      exact List.le_of_mem_argmin member least

theorem IsMinRank.eq (least : layout.IsMinRank rank) (least' : layout.IsMinRank other)
    (inside : rank ∈ layout.workers) (inside' : other ∈ layout.workers)
    (same : layout.colour rank = layout.colour other) : rank = other :=
  Nat.le_antisymm (least other (mem_group.mpr ⟨inside', same.symm⟩))
    (least' rank (mem_group.mpr ⟨inside, same⟩))

end Layout

namespace Repository

variable {F α : Type*} {layout : Layout F} {repository next : Repository F α}
  {disk : F → File α}
  {rank other group : Nat} {graph : α} {source : Option α}

inductive Moved [DecidableEq F] (layout : Layout F) (repository : Repository F α) (rank : Nat)
    (graph : α) : Repository F α → Prop
  | miss (phase : repository.phase rank = .checking)
      (file : repository.disk (layout.file rank) = .absent) :
      Moved layout repository rank graph (repository.move rank .electing)
  | find (phase : repository.phase rank = .checking)
      (file : repository.disk (layout.file rank) ≠ .absent) :
      Moved layout repository rank graph (repository.move rank (.reading false []))
  | win (phase : repository.phase rank = .electing)
      (joined : ∀ other ∈ layout.group rank, (repository.phase other).joined = true)
      (least : layout.IsMinRank rank) :
      Moved layout repository rank graph (repository.move rank .creating)
  | lose (phase : repository.phase rank = .electing)
      (joined : ∀ other ∈ layout.group rank, (repository.phase other).joined = true)
      (greater : ¬layout.IsMinRank rank) :
      Moved layout repository rank graph (repository.move rank (.meeting []))
  | create (phase : repository.phase rank = .creating) :
      Moved layout repository rank graph
        { repository.move rank (.writing graph) with
          disk := Function.update repository.disk (layout.file rank) .begun
          generated := (rank, graph) :: repository.generated }
  | write (written : α) (phase : repository.phase rank = .writing written) :
      Moved layout repository rank graph
        { repository.move rank (.meeting [written]) with
          disk := Function.update repository.disk (layout.file rank) (.complete written) }
  | meet (parts : List α) (phase : repository.phase rank = .meeting parts)
      (met : ∀ other ∈ layout.group rank, (repository.phase other).met = true) :
      Moved layout repository rank graph (repository.move rank (.reading true parts))
  | read (joined : Bool) (parts : List α) (phase : repository.phase rank = .reading joined parts) :
      Moved layout repository rank graph
        (repository.move rank
          (.finished joined (readInto parts (repository.disk (layout.file rank)))))

theorem step_cases [DecidableEq F]
    (stepped : step layout repository (rank, graph) = some next) :
    rank ∈ layout.workers ∧ Moved layout repository rank graph next := by
  unfold step at stepped
  dsimp only at stepped
  split at stepped
  · cases stepped
  rename_i inside
  refine ⟨not_not.mp inside, ?_⟩
  split at stepped
  · rename_i phase
    split at stepped
    · rename_i file
      rw [← Option.some.inj stepped]
      exact .miss phase file
    · rename_i file
      rw [← Option.some.inj stepped]
      exact .find phase file
  · rename_i phase
    split at stepped
    · rename_i joined
      split at stepped
      · rename_i least
        rw [← Option.some.inj stepped]
        exact .win phase joined least
      · rename_i greater
        rw [← Option.some.inj stepped]
        exact .lose phase joined greater
    · cases stepped
  · rename_i phase
    rw [← Option.some.inj stepped]
    exact .create phase
  · rename_i written phase
    rw [← Option.some.inj stepped]
    exact .write written phase
  · rename_i parts phase
    split at stepped
    · rename_i met
      rw [← Option.some.inj stepped]
      exact .meet parts phase met
    · cases stepped
  · rename_i joined parts phase
    rw [← Option.some.inj stepped]
    exact .read joined parts phase
  · cases stepped

def generatedIn (layout : Layout F) (repository : Repository F α) (group : Nat) : List (Nat × α) :=
  repository.generated.filter fun made => layout.colour made.1 = group

def GeneratedOnce (layout : Layout F) (repository : Repository F α) (group : Nat) (graph : α) :
    Prop :=
  ∃ rank ∈ layout.workers, layout.colour rank = group ∧ layout.IsMinRank rank ∧
    generatedIn layout repository group = [(rank, graph)]

def Shows (layout : Layout F) (repository : Repository F α) (group : Nat) (file : File α) : Prop :=
  ∀ rank ∈ layout.workers, layout.colour rank = group →
    repository.disk (layout.file rank) = file

def made (layout : Layout F) (graph : α) (rank : Nat) : List α :=
  if layout.IsMinRank rank then [graph] else []

def Stands (layout : Layout F) (repository : Repository F α) (group : Nat)
    (phases : Nat → Phase α → Prop) : Prop :=
  ∀ rank ∈ layout.workers, layout.colour rank = group → phases rank (repository.phase rank)

/-- Where the members of a group can stand, for each of the stages of its file. The index is the
graph that was there at the start. -/
inductive Stage (layout : Layout F) (repository : Repository F α) (group : Nat) : Option α → Prop
  | existing (graph : α) (generated : generatedIn layout repository group = [])
      (file : Shows layout repository group (.complete graph))
      (phases : Stands layout repository group fun _ phase =>
        phase = .checking ∨ phase = .reading false [] ∨ phase = .finished false (some [graph])) :
      Stage layout repository group (some graph)
  | gathering (generated : generatedIn layout repository group = [])
      (file : Shows layout repository group .absent)
      (phases : Stands layout repository group fun _ phase =>
        phase = .checking ∨ phase = .electing) :
      Stage layout repository group none
  | elected (generated : generatedIn layout repository group = [])
      (file : Shows layout repository group .absent)
      (phases : Stands layout repository group fun rank phase =>
        phase = .electing ∨
          if layout.IsMinRank rank then phase = .creating else phase = .meeting []) :
      Stage layout repository group none
  | writing (graph : α) (generated : GeneratedOnce layout repository group graph)
      (file : Shows layout repository group .begun)
      (phases : Stands layout repository group fun rank phase =>
        if layout.IsMinRank rank then phase = .writing graph
        else phase = .electing ∨ phase = .meeting []) :
      Stage layout repository group none
  | written (graph : α) (generated : GeneratedOnce layout repository group graph)
      (file : Shows layout repository group (.complete graph))
      (phases : Stands layout repository group fun rank phase =>
        if layout.IsMinRank rank then phase = .meeting [graph]
        else phase = .electing ∨ phase = .meeting []) :
      Stage layout repository group none
  | shared (graph : α) (generated : GeneratedOnce layout repository group graph)
      (file : Shows layout repository group (.complete graph))
      (phases : Stands layout repository group fun rank phase =>
        phase = .meeting (made layout graph rank) ∨ phase = .reading true (made layout graph rank) ∨
          phase = .finished true (some (made layout graph rank ++ [graph]))) :
      Stage layout repository group none

theorem Stands.mono {phases phases' : Nat → Phase α → Prop}
    (stands : Stands layout repository group phases)
    (weaker : ∀ rank ∈ layout.workers, layout.colour rank = group → ∀ phase,
      repository.phase rank = phase → phases rank phase → phases' rank phase) :
    Stands layout repository group phases' :=
  fun rank inside own => weaker rank inside own _ rfl (stands rank inside own)

theorem Stands.move {phases : Nat → Phase α → Prop} {phase : Phase α}
    (stands : Stands layout repository group phases) (new : phases rank phase) :
    Stands layout (repository.move rank phase) group phases := by
  intro other inside own
  by_cases same : other = rank
  · subst same
    simpa [Repository.move] using new
  · simpa [Repository.move, Function.update_of_ne same] using stands other inside own

theorem Stage.congr (stage : Stage layout repository group source)
    (phases : ∀ other ∈ layout.workers, layout.colour other = group →
      next.phase other = repository.phase other)
    (disk : ∀ other ∈ layout.workers, layout.colour other = group →
      next.disk (layout.file other) = repository.disk (layout.file other))
    (same : generatedIn layout next group = generatedIn layout repository group) :
    Stage layout next group source := by
  have shows {file : File α} (before : Shows layout repository group file) :
      Shows layout next group file := fun rank inside own =>
    (disk rank inside own).trans (before rank inside own)
  have stands {allowed : Nat → Phase α → Prop} (before : Stands layout repository group allowed) :
      Stands layout next group allowed := fun rank inside own =>
    phases rank inside own ▸ before rank inside own
  have once {graph : α} (before : GeneratedOnce layout repository group graph) :
      GeneratedOnce layout next group graph := by
    obtain ⟨rank, inside, own, least, alone⟩ := before
    exact ⟨rank, inside, own, least, same.trans alone⟩
  cases stage with
  | existing graph generated file phases =>
      exact .existing graph (same.trans generated) (shows file) (stands phases)
  | gathering generated file phases =>
      exact .gathering (same.trans generated) (shows file) (stands phases)
  | elected generated file phases =>
      exact .elected (same.trans generated) (shows file) (stands phases)
  | writing graph generated file phases =>
      exact .writing graph (once generated) (shows file) (stands phases)
  | written graph generated file phases =>
      exact .written graph (once generated) (shows file) (stands phases)
  | shared graph generated file phases =>
      exact .shared graph (once generated) (shows file) (stands phases)

section Moved

variable [DecidableEq F]

theorem Moved.phase_of_ne (moved : Moved layout repository rank graph next)
    (different : other ≠ rank) : next.phase other = repository.phase other := by
  cases moved <;> exact Function.update_of_ne different _ _

theorem Moved.disk_of_ne (moved : Moved layout repository rank graph next) {file : F}
    (different : file ≠ layout.file rank) : next.disk file = repository.disk file := by
  cases moved with
  | create phase => exact Function.update_of_ne different _ _
  | write written phase => exact Function.update_of_ne different _ _
  | _ => rfl

theorem Moved.generatedIn_of_ne (moved : Moved layout repository rank graph next)
    (different : layout.colour rank ≠ group) :
    generatedIn layout next group = generatedIn layout repository group := by
  cases moved with
  | create phase => exact List.filter_cons_of_neg (by simpa using different)
  | _ => rfl

theorem Moved.disk_eq (moved : Moved layout repository rank graph next)
    {graph' : α}
    (stage : Stage layout repository (layout.colour rank) (some graph'))
    (inside : rank ∈ layout.workers) : next.disk = repository.disk := by
  cases stage with
  | existing _ _ _ phases =>
      have own := phases rank inside rfl
      cases moved with
      | create phase => simp [phase] at own
      | write written phase => simp [phase] at own
      | _ => rfl

def Staged (layout : Layout F) (disk : F → File α) (repository : Repository F α) : Prop :=
  ∀ rank ∈ layout.workers,
    Stage layout repository (layout.colour rank) (Repository.read (disk (layout.file rank)))

theorem Staged.step_other (staged : Staged layout disk repository)
    (separate : layout.Separate disk) (inside : rank ∈ layout.workers)
    (inside' : other ∈ layout.workers) (moved : Moved layout repository rank graph next)
    (different : layout.colour rank ≠ layout.colour other) :
    Stage layout next (layout.colour other) (Repository.read (disk (layout.file other))) := by
  refine (staged other inside').congr ?_ ?_ (moved.generatedIn_of_ne different)
  · intro near _ own
    refine moved.phase_of_ne ?_
    rintro rfl
    exact different own
  · intro near member own
    cases before : disk (layout.file rank) with
    | absent =>
        refine moved.disk_of_ne fun same => different ?_
        rw [← own]
        exact separate.apart rank inside near member before same.symm
    | begun => exact absurd before (separate.whole rank inside)
    | complete graph' =>
        have stage := staged rank inside
        rw [before] at stage
        rw [moved.disk_eq stage inside]

end Moved

theorem Stands.elects {elected : Phase α}
    (stands : Stands layout repository (layout.colour rank) fun _ phase =>
      phase = .checking ∨ phase = .electing)
    (joined : ∀ other ∈ layout.group rank, (repository.phase other).joined = true)
    (outcome : if layout.IsMinRank rank then elected = .creating else elected = .meeting []) :
    Stands layout (repository.move rank elected) (layout.colour rank) fun rank phase =>
      phase = .electing ∨
        if layout.IsMinRank rank then phase = .creating else phase = .meeting [] := by
  refine Stands.move (stands.mono fun other member own phase at_ earlier => ?_) (Or.inr outcome)
  rcases earlier with rfl | rfl
  · have entered := joined other (Layout.mem_group.mpr ⟨member, own⟩)
    simp [at_, Phase.joined] at entered
  · exact Or.inl rfl

theorem Stands.move_least {phases phases' : Nat → Phase α → Prop} {phase : Phase α}
    (stands : Stands layout repository (layout.colour rank) phases)
    (inside : rank ∈ layout.workers) (least : layout.IsMinRank rank) (new : phases' rank phase)
    (weaker : ∀ other, ¬layout.IsMinRank other → phases other (repository.phase other) →
      phases' other (repository.phase other)) :
    Stands layout (repository.move rank phase) (layout.colour rank) phases' := by
  intro other member own
  by_cases same : other = rank
  · subst same
    simpa [Repository.move] using new
  · have greater : ¬layout.IsMinRank other := fun least' =>
      same (least'.eq least member inside own)
    simpa [Repository.move, Function.update_of_ne same] using
      weaker other greater (stands other member own)

theorem Stands.exists_least {phases : Nat → Phase α → Prop} (inside : rank ∈ layout.workers)
    (stands : Stands layout repository (layout.colour rank) phases) :
    ∃ least ∈ layout.group rank, layout.IsMinRank least ∧
      phases least (repository.phase least) := by
  obtain ⟨least, member, minimum⟩ := Layout.exists_minRank inside
  have ⟨worker, own⟩ := Layout.mem_group.mp member
  exact ⟨least, member, minimum, stands least worker own⟩

section Own

variable (stage : Stage layout repository (layout.colour rank) source)
  (inside : rank ∈ layout.workers)
include stage inside

theorem Stage.miss (phase : repository.phase rank = .checking)
    (absent : repository.disk (layout.file rank) = .absent) :
    Stage layout (repository.move rank .electing) (layout.colour rank) source := by
  cases stage with
  | existing written generated file phases =>
      have shown := file rank inside rfl
      simp [absent] at shown
  | gathering generated file phases =>
      exact .gathering generated file (phases.move (Or.inr rfl))
  | elected _ _ phases | writing _ _ _ phases | written _ _ _ phases | shared _ _ _ phases =>
      have own := phases rank inside rfl
      simp [phase] at own

theorem Stage.find (phase : repository.phase rank = .checking)
    (present : repository.disk (layout.file rank) ≠ .absent) :
    Stage layout (repository.move rank (.reading false [])) (layout.colour rank) source := by
  cases stage with
  | existing written generated file phases =>
      exact .existing written generated file (phases.move (Or.inr (Or.inl rfl)))
  | gathering generated file phases => exact absurd (file rank inside rfl) present
  | elected generated file phases => exact absurd (file rank inside rfl) present
  | writing _ _ _ phases | written _ _ _ phases | shared _ _ _ phases =>
      have own := phases rank inside rfl
      simp [phase] at own

theorem Stage.win (phase : repository.phase rank = .electing)
    (joined : ∀ other ∈ layout.group rank, (repository.phase other).joined = true)
    (least : layout.IsMinRank rank) :
    Stage layout (repository.move rank .creating) (layout.colour rank) source := by
  cases stage with
  | existing written generated file phases =>
      have own := phases rank inside rfl
      simp [phase] at own
  | gathering generated file phases =>
      exact .elected generated file (phases.elects joined (by rw [if_pos least]))
  | elected generated file phases =>
      exact .elected generated file (phases.move (Or.inr (by rw [if_pos least])))
  | writing _ _ _ phases | written _ _ _ phases =>
      have own := phases rank inside rfl
      simp [phase, least] at own
  | shared written generated file phases =>
      have own := phases rank inside rfl
      simp [phase] at own

theorem Stage.lose (phase : repository.phase rank = .electing)
    (joined : ∀ other ∈ layout.group rank, (repository.phase other).joined = true)
    (greater : ¬layout.IsMinRank rank) :
    Stage layout (repository.move rank (.meeting [])) (layout.colour rank) source := by
  cases stage with
  | existing written generated file phases =>
      have own := phases rank inside rfl
      simp [phase] at own
  | gathering generated file phases =>
      exact .elected generated file (phases.elects joined (by rw [if_neg greater]))
  | elected generated file phases =>
      exact .elected generated file (phases.move (Or.inr (by rw [if_neg greater])))
  | writing written generated file phases =>
      exact .writing written generated file (phases.move (by simp [greater]))
  | written written generated file phases =>
      exact .written written generated file (phases.move (by simp [greater]))
  | shared written generated file phases =>
      have own := phases rank inside rfl
      simp [phase] at own

theorem Stage.create [DecidableEq F] (separate : layout.Separate disk)
    (phase : repository.phase rank = .creating) :
    Stage layout
      { repository.move rank (.writing graph) with
        disk := Function.update repository.disk (layout.file rank) .begun
        generated := (rank, graph) :: repository.generated }
      (layout.colour rank) source := by
  cases stage with
  | existing _ _ _ phases | gathering _ _ phases =>
      have own := phases rank inside rfl
      simp [phase] at own
  | elected generated file phases =>
      have least : layout.IsMinRank rank := by
        by_contra greater
        have own := phases rank inside rfl
        simp [phase, greater] at own
      refine .writing graph ⟨rank, inside, rfl, least, ?_⟩ ?_ ?_
      · rw [generatedIn, List.filter_cons_of_pos (by simp)]
        exact congrArg ((rank, graph) :: ·) generated
      · intro other member own
        have same := separate.together other member rank inside own
        exact same ▸ Function.update_self _ _ _
      · have others : Stands layout (repository.move rank (.writing graph)) (layout.colour rank)
            fun rank phase => if layout.IsMinRank rank then phase = .writing graph
              else phase = .electing ∨ phase = .meeting [] := by
          refine phases.move_least inside least (by rw [if_pos least]) ?_
          intro other greater stands
          simpa [greater] using stands
        exact others
  | writing _ _ _ phases | written _ _ _ phases =>
      have own := phases rank inside rfl
      by_cases least : layout.IsMinRank rank <;> simp [phase, least] at own
  | shared written generated file phases =>
      have own := phases rank inside rfl
      simp [phase] at own

theorem Stage.write [DecidableEq F] (separate : layout.Separate disk) {written : α}
    (phase : repository.phase rank = .writing written) :
    Stage layout
      { repository.move rank (.meeting [written]) with
        disk := Function.update repository.disk (layout.file rank) (.complete written) }
      (layout.colour rank) source := by
  cases stage with
  | existing _ _ _ phases | gathering _ _ phases =>
      have own := phases rank inside rfl
      simp [phase] at own
  | elected generated file phases =>
      have own := phases rank inside rfl
      by_cases least : layout.IsMinRank rank <;> simp [phase, least] at own
  | writing graph generated file phases =>
      have least : layout.IsMinRank rank := by
        by_contra greater
        have own := phases rank inside rfl
        simp [phase, greater] at own
      have own := phases rank inside rfl
      simp only [phase, if_pos least, Phase.writing.injEq] at own
      subst own
      refine .written written generated ?_ ?_
      · intro other member own
        have same := separate.together other member rank inside own
        exact same ▸ Function.update_self _ _ _
      · have others : Stands layout (repository.move rank (.meeting [written]))
            (layout.colour rank) fun rank phase =>
              if layout.IsMinRank rank then phase = .meeting [written]
              else phase = .electing ∨ phase = .meeting [] := by
          refine phases.move_least inside least (by rw [if_pos least]) ?_
          intro other greater stands
          simpa [greater] using stands
        exact others
  | written generated generated file phases =>
      have own := phases rank inside rfl
      by_cases least : layout.IsMinRank rank <;> simp [phase, least] at own
  | shared generated generated file phases =>
      have own := phases rank inside rfl
      simp [phase] at own

theorem Stage.meet {parts : List α} (phase : repository.phase rank = .meeting parts)
    (met : ∀ other ∈ layout.group rank, (repository.phase other).met = true) :
    Stage layout (repository.move rank (.reading true parts)) (layout.colour rank) source := by
  cases stage with
  | existing _ _ _ phases | gathering _ _ phases =>
      have own := phases rank inside rfl
      simp [phase] at own
  | elected generated file phases =>
      obtain ⟨least, member, minimum, stands⟩ := phases.exists_least inside
      have there := met least member
      rw [if_pos minimum] at stands
      rcases stands with at_ | at_ <;> simp [at_, Phase.met] at there
  | writing written generated file phases =>
      obtain ⟨least, member, minimum, stands⟩ := phases.exists_least inside
      have there := met least member
      rw [if_pos minimum] at stands
      simp [stands, Phase.met] at there
  | written written generated file phases =>
      have holds : ∀ other ∈ layout.workers, layout.colour other = layout.colour rank →
          repository.phase other = .meeting (made layout written other) := by
        intro other member own
        have there := met other (Layout.mem_group.mpr ⟨member, own⟩)
        have stands := phases other member own
        by_cases least : layout.IsMinRank other
        · rw [made, if_pos least]
          simpa [least] using stands
        · rw [made, if_neg least]
          simp only [least, if_false] at stands
          refine stands.resolve_left fun electing => ?_
          simp [electing, Phase.met] at there
      have own : parts = made layout written rank :=
        Phase.meeting.inj (phase.symm.trans (holds rank inside rfl))
      refine .shared written generated file ?_
      exact Stands.move (fun other member own => .inl (holds other member own))
        (.inr (.inl (by rw [own])))
  | shared written generated file phases =>
      have own : parts = made layout written rank := by
        simpa [phase] using phases rank inside rfl
      exact .shared written generated file (phases.move (.inr (.inl (by rw [own]))))

theorem Stage.read {joined : Bool} {parts : List α}
    (phase : repository.phase rank = .reading joined parts) :
    Stage layout
      (repository.move rank
        (.finished joined (readInto parts (repository.disk (layout.file rank)))))
      (layout.colour rank) source := by
  cases stage with
  | existing written generated file phases =>
      have own := phases rank inside rfl
      simp only [phase, reduceCtorEq, Phase.reading.injEq, false_or, or_false] at own
      obtain ⟨rfl, rfl⟩ := own
      rw [file rank inside rfl]
      exact .existing written generated file (phases.move (.inr (.inr rfl)))
  | gathering _ _ phases | elected _ _ phases | writing _ _ _ phases | written _ _ _ phases =>
      have own := phases rank inside rfl
      simp [phase] at own
  | shared written generated file phases =>
      have own := phases rank inside rfl
      simp only [phase, reduceCtorEq, Phase.reading.injEq, false_or, or_false] at own
      obtain ⟨rfl, rfl⟩ := own
      rw [file rank inside rfl]
      exact .shared written generated file (phases.move (.inr (.inr rfl)))

end Own

theorem Staged.step [DecidableEq F] (separate : layout.Separate disk)
    (staged : Staged layout disk repository)
    (stepped : step layout repository (rank, graph) = some next) : Staged layout disk next := by
  obtain ⟨inside, moved⟩ := step_cases stepped
  intro other inside'
  by_cases own : layout.colour rank = layout.colour other
  · rw [← own, separate.together other inside' rank inside own.symm]
    have stage := staged rank inside
    cases moved with
    | miss phase absent => exact stage.miss inside phase absent
    | find phase present => exact stage.find inside phase present
    | win phase joined least => exact stage.win inside phase joined least
    | lose phase joined greater => exact stage.lose inside phase joined greater
    | create phase => exact stage.create inside separate phase
    | write written phase => exact stage.write inside separate phase
    | meet parts phase met => exact stage.meet inside phase met
    | read joined parts phase => exact stage.read inside phase
  · exact staged.step_other separate inside inside' moved own

end Repository

end RlAqs
