import RlAqs.Campaign.SharedStages
import RlAqs.Library.Runs
import Mathlib.Algebra.GroupWithZero.Nat
import Mathlib.Algebra.Order.BigOperators.Group.List
import Mathlib.Algebra.Order.Group.Nat

/-!
Where every group has a file of its own, its members agree on one graph whatever the order of
their operations: the one with the minimum rank generates it if it is not there, all read it when
it is complete, and nobody waits for ever.
-/

namespace RlAqs

namespace Repository

variable {F α : Type*} {layout : Layout F} {repository next : Repository F α}
  {disk : F → File α}
  {rank other group : Nat} {graph : α} {source : Option α}

def Able [DecidableEq F] (layout : Layout F) (repository : Repository F α) (rank : Nat) : Prop :=
  ∀ graph, ∃ next, step layout repository (rank, graph) = some next

section Able

variable [DecidableEq F] (inside : rank ∈ layout.workers)
include inside

theorem able_checking (phase : repository.phase rank = .checking) :
    Able layout repository rank := by
  intro graph
  simp only [step, phase]
  rw [if_neg (not_not.mpr inside)]
  cases repository.disk (layout.file rank) with
  | absent => exact ⟨_, rfl⟩
  | begun => exact ⟨_, rfl⟩
  | complete graph => exact ⟨_, rfl⟩

theorem able_electing (phase : repository.phase rank = .electing)
    (joined : ∀ other ∈ layout.group rank, (repository.phase other).joined = true) :
    Able layout repository rank := by
  intro graph
  simp only [step, phase]
  rw [if_neg (not_not.mpr inside), if_pos joined]
  by_cases least : layout.IsMinRank rank
  · exact ⟨_, if_pos least⟩
  · exact ⟨_, if_neg least⟩

theorem able_creating (phase : repository.phase rank = .creating) :
    Able layout repository rank := by
  intro graph
  simp only [step, phase]
  exact ⟨_, if_neg (not_not.mpr inside)⟩

theorem able_writing {written : α} (phase : repository.phase rank = .writing written) :
    Able layout repository rank := by
  intro graph
  simp only [step, phase]
  exact ⟨_, if_neg (not_not.mpr inside)⟩

theorem able_meeting {parts : List α} (phase : repository.phase rank = .meeting parts)
    (met : ∀ other ∈ layout.group rank, (repository.phase other).met = true) :
    Able layout repository rank := by
  intro graph
  simp only [step, phase]
  rw [if_neg (not_not.mpr inside)]
  exact ⟨_, if_pos met⟩

theorem able_reading {joined : Bool} {parts : List α}
    (phase : repository.phase rank = .reading joined parts) : Able layout repository rank := by
  intro graph
  simp only [step, phase]
  exact ⟨_, if_neg (not_not.mpr inside)⟩

/-- As long as a worker of the group is not through, one of them can go on. -/
theorem Stage.able (stage : Stage layout repository (layout.colour rank) source)
    (unfinished : (repository.phase rank).isFinished = false) :
    ∃ other ∈ layout.workers, Able layout repository other := by
  cases stage with
  | existing graph generated file phases =>
      rcases phases rank inside rfl with at_ | at_ | at_
      · exact ⟨rank, inside, able_checking inside at_⟩
      · exact ⟨rank, inside, able_reading inside at_⟩
      · simp [at_, Phase.isFinished] at unfinished
  | gathering generated file phases =>
      by_cases waiting : ∃ other ∈ layout.group rank, repository.phase other = .checking
      · obtain ⟨other, member, at_⟩ := waiting
        have worker := (Layout.mem_group.mp member).1
        exact ⟨other, worker, able_checking worker at_⟩
      · push Not at waiting
        have all : ∀ other ∈ layout.group rank, repository.phase other = .electing := by
          intro other member
          have ⟨worker, own⟩ := Layout.mem_group.mp member
          exact (phases other worker own).resolve_left (waiting other member)
        refine ⟨rank, inside, able_electing inside (all rank ?_) fun other member => ?_⟩
        · exact Layout.mem_group.mpr ⟨inside, rfl⟩
        · rw [all other member]
          rfl
  | elected generated file phases =>
      obtain ⟨least, member, minimum, stands⟩ := phases.exists_least inside
      have ⟨worker, own⟩ := Layout.mem_group.mp member
      rw [if_pos minimum] at stands
      rcases stands with at_ | at_
      · refine ⟨least, worker, able_electing worker at_ fun other near => ?_⟩
        have ⟨worker', own'⟩ := Layout.mem_group.mp near
        rcases phases other worker' (own'.trans own) with there | there
        · rw [there]
          rfl
        · split at there <;> rw [there] <;> rfl
      · exact ⟨least, worker, able_creating worker at_⟩
  | writing graph generated file phases =>
      obtain ⟨least, member, minimum, stands⟩ := phases.exists_least inside
      rw [if_pos minimum] at stands
      have worker := (Layout.mem_group.mp member).1
      exact ⟨least, worker, able_writing worker stands⟩
  | written graph generated file phases =>
      have stands : ∀ other ∈ layout.group rank, repository.phase other = .electing ∨
          repository.phase other = .meeting (made layout graph other) := by
        intro other member
        have ⟨worker, own⟩ := Layout.mem_group.mp member
        by_cases minimum : layout.IsMinRank other
        · exact Or.inr (by simpa [minimum, made] using phases other worker own)
        · simpa [minimum, made] using phases other worker own
      by_cases waiting : ∃ other ∈ layout.group rank, repository.phase other = .electing
      · obtain ⟨other, member, at_⟩ := waiting
        have ⟨worker, own⟩ := Layout.mem_group.mp member
        refine ⟨other, worker, able_electing worker at_ fun near member' => ?_⟩
        have ⟨worker', own'⟩ := Layout.mem_group.mp member'
        rcases stands near (Layout.mem_group.mpr ⟨worker', own'.trans own⟩) with there | there <;>
          rw [there] <;> rfl
      · push Not at waiting
        have all : ∀ other ∈ layout.group rank,
            repository.phase other = .meeting (made layout graph other) := fun other member => (stands other member).resolve_left (waiting other member)
        refine ⟨rank, inside, able_meeting inside (all rank ?_) fun other member => ?_⟩
        · exact Layout.mem_group.mpr ⟨inside, rfl⟩
        · rw [all other member]
          rfl
  | shared graph generated file phases =>
      rcases phases rank inside rfl with at_ | at_ | at_
      · refine ⟨rank, inside, able_meeting inside at_ fun other member => ?_⟩
        have ⟨worker, own⟩ := Layout.mem_group.mp member
        rcases phases other worker own with there | there | there <;> rw [there] <;> rfl
      · exact ⟨rank, inside, able_reading inside at_⟩
      · simp [at_, Phase.isFinished] at unfinished

end Able

def weight : Phase α → Nat
  | .checking => 6
  | .electing => 5
  | .creating => 4
  | .writing _ => 3
  | .meeting _ => 2
  | .reading _ _ => 1
  | .finished _ _ => 0

def remaining (layout : Layout F) (repository : Repository F α) : Nat :=
  (layout.workers.map fun rank => weight (repository.phase rank)).sum

theorem remaining_start (layout : Layout F) (disk : F → File α) :
    remaining layout (start disk) = 6 * layout.workers.length := by
  simp [remaining, start, weight, Nat.mul_comm]

theorem remaining_step [DecidableEq F]
    (stepped : step layout repository (rank, graph) = some next) :
    remaining layout next + 1 ≤ remaining layout repository := by
  obtain ⟨inside, moved⟩ := step_cases stepped
  have own : weight (next.phase rank) < weight (repository.phase rank) := by
    cases moved <;> simp_all [Repository.move, weight]
  have each : ∀ other ∈ layout.workers,
      weight (next.phase other) ≤ weight (repository.phase other) := by
    intro other _
    by_cases same : other = rank
    · exact same ▸ own.le
    · rw [moved.phase_of_ne same]
  exact List.sum_lt_sum (fun other => weight (next.phase other))
    (fun other => weight (repository.phase other)) each ⟨rank, inside, own⟩

theorem staged_start (separate : layout.Separate disk) : Staged layout disk (start disk) := by
  intro rank inside
  have shows : Shows layout (start disk) (layout.colour rank) (disk (layout.file rank)) := by
    intro other member own
    rw [separate.together other member rank inside own]
    rfl
  cases found : disk (layout.file rank) with
  | absent =>
      rw [found] at shows
      exact .gathering rfl shows fun _ _ _ => Or.inl rfl
  | begun => exact absurd found (separate.whole rank inside)
  | complete graph =>
      rw [found] at shows
      exact .existing graph rfl shows fun _ _ _ => Or.inl rfl

theorem Stage.outcome {joined : Bool} {parts : Option (List α)}
    (stage : Stage layout repository (layout.colour rank) source) (inside : rank ∈ layout.workers)
    (finished : repository.phase rank = .finished joined parts) :
    ∃ graph, repository.disk (layout.file rank) = .complete graph ∧
      (source = some graph ∧ parts = some [graph] ∨
        source = none ∧ parts = some (made layout graph rank ++ [graph]) ∧
          ∃ least ∈ layout.group rank, layout.IsMinRank least ∧
            generatedIn layout repository (layout.colour rank) = [(least, graph)]) := by
  cases stage with
  | existing graph generated file phases =>
      have own := phases rank inside rfl
      simp only [finished, reduceCtorEq, Phase.finished.injEq, false_or] at own
      exact ⟨graph, file rank inside rfl, Or.inl ⟨rfl, own.2⟩⟩
  | gathering _ _ phases =>
      have own := phases rank inside rfl
      simp [finished] at own
  | elected _ _ phases | writing _ _ _ phases | written _ _ _ phases =>
      have own := phases rank inside rfl
      by_cases least : layout.IsMinRank rank <;> simp [finished, least] at own
  | shared graph generated file phases =>
      have own := phases rank inside rfl
      simp only [finished, reduceCtorEq, Phase.finished.injEq, false_or] at own
      obtain ⟨least, member, same, minimum, once⟩ := generated
      exact ⟨graph, file rank inside rfl,
        Or.inr ⟨rfl, own.2, least, Layout.mem_group.mpr ⟨member, same⟩, minimum, once⟩⟩

theorem Stage.generatedIn_length (stage : Stage layout repository group source) :
    (generatedIn layout repository group).length ≤ 1 ∧
      (source ≠ none → generatedIn layout repository group = []) := by
  cases stage with
  | existing _ generated _ _ | gathering generated _ _ | elected generated _ _ => simp [generated]
  | writing _ generated _ _ | written _ generated _ _ | shared _ generated _ _ =>
      obtain ⟨least, member, same, minimum, once⟩ := generated
      simp [once]

/-- All members of a group read one complete graph: the one that was there, or else the only one
that is generated, by the minimum rank, which reads it into the graph that it has generated and
goes on with two copies. Some worker can always go on, and they get through. -/
theorem run_shares [DecidableEq F] (separate : layout.Separate disk) {turns : List (Nat × α)}
    {final : Repository F α} (ran : Runs.run (step layout) (start disk) turns = some final) :
    (∀ rank ∈ layout.workers, ∀ joined parts, final.phase rank = .finished joined parts →
      ∃ graph, final.disk (layout.file rank) = .complete graph ∧
        (disk (layout.file rank) = .complete graph ∧ parts = some [graph] ∨
          disk (layout.file rank) = .absent ∧
            (parts = some (if layout.IsMinRank rank then [graph, graph] else [graph])) ∧
            ∃ least ∈ layout.group rank, layout.IsMinRank least ∧
              generatedIn layout final (layout.colour rank) = [(least, graph)])) ∧
    (∀ rank ∈ layout.workers, (generatedIn layout final (layout.colour rank)).length ≤ 1 ∧
      (disk (layout.file rank) ≠ .absent → generatedIn layout final (layout.colour rank) = [])) ∧
    ((∃ rank ∈ layout.workers, (final.phase rank).isFinished = false) →
      ∃ rank ∈ layout.workers, Able layout final rank) ∧
    turns.length ≤ 6 * layout.workers.length := by
  have stages : Staged layout disk final :=
    Runs.run_invariant (Staged layout disk) (fun _ _ _ earlier stepped =>
      earlier.step separate stepped) (staged_start separate) ran
  refine ⟨fun rank inside joined parts finished => ?_, fun rank inside => ?_, ?_, ?_⟩
  · obtain ⟨graph, complete, origin⟩ := (stages rank inside).outcome inside finished
    refine ⟨graph, complete, ?_⟩
    cases before : disk (layout.file rank) with
    | absent =>
        rw [before] at origin
        obtain ⟨-, held, made_⟩ := origin.resolve_left fun there => by
          cases there.1
        refine .inr ⟨rfl, ?_, made_⟩
        rw [held, made]
        split <;> rfl
    | begun => exact absurd before (separate.whole rank inside)
    | complete graph' =>
        rw [before] at origin
        obtain ⟨same, held⟩ := origin.resolve_right fun there => by
          cases there.1
        exact .inl ⟨congrArg File.complete (Option.some.inj same), held⟩
  · refine (stages rank inside).generatedIn_length.imp_right fun none present => none ?_
    cases before : disk (layout.file rank) with
    | absent => exact absurd before present
    | begun => exact absurd before (separate.whole rank inside)
    | complete graph => simp [Repository.read]
  · rintro ⟨rank, inside, unfinished⟩
    exact (stages rank inside).able inside unfinished
  · have bounded := Runs.run_length_le (fun _ => True) (remaining layout) (fun _ => 0)
      (fun _ _ _ _ _ _ => trivial) (fun _ _ _ _ _ stepped => remaining_step stepped) trivial
      (Runs.along_true _ _) ran
    rw [remaining_start] at bounded
    omega

def twoGroups : Layout Nat where
  workers := [1, 2, 3]
  nodup := by decide
  colour := fun rank => rank / 3
  file := fun rank => rank / 3

def oneFile (file : Nat) : File Nat := if file = 1 then .complete 9 else .absent

def twoGroupsTurns : List (Nat × Nat) :=
  [(2, 0), (3, 0), (1, 0), (1, 0), (2, 0), (1, 7), (3, 0), (1, 0), (2, 0), (2, 0), (1, 0), (1, 0)]

theorem run_shares_two_groups :
    ∃ final, Runs.run (step twoGroups) (start oneFile) twoGroupsTurns = some final ∧
      ∀ rank ∈ [1, 2, 3], ∀ joined parts, final.phase rank = .finished joined parts →
        ∃ graph, final.disk (rank / 3) = .complete graph ∧
          (oneFile (rank / 3) = .complete graph ∧ parts = some [graph] ∨
            oneFile (rank / 3) = .absent ∧
              (parts = some (if twoGroups.IsMinRank rank then [graph, graph] else [graph])) ∧
              ∃ least ∈ twoGroups.group rank, twoGroups.IsMinRank least ∧
                generatedIn twoGroups final (rank / 3) = [(least, graph)]) := by
  have separate : twoGroups.Separate oneFile := ⟨by decide, by decide, by decide⟩
  have through : (Runs.run (step twoGroups) (start oneFile) twoGroupsTurns).isSome = true := by
    decide
  obtain ⟨final, ran⟩ := Option.isSome_iff_exists.mp through
  exact ⟨final, ran, (run_shares separate ran).1⟩

end Repository

end RlAqs
