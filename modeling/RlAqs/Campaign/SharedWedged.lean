import RlAqs.Campaign.SharedStages
import RlAqs.Library.Runs
import Mathlib.Data.List.Nodup

/-!
Two groups whose jobs name the same file, which is not there: a worker of one group can find what
the other group has not written to the end. It skips the collective operations, and the members of
its group that have entered them wait for it for ever.
-/

namespace RlAqs

namespace Repository

variable {F α : Type*} [DecidableEq F] {layout : Layout F} {repository next : Repository F α}
  {rank other : Nat} {graph : α}

theorem run_misses {members : List Nat} (graph : α) (distinct : members.Nodup)
    (inside : ∀ rank ∈ members, rank ∈ layout.workers)
    (phase : ∀ rank ∈ members, repository.phase rank = .checking)
    (absent : ∀ rank ∈ members, repository.disk (layout.file rank) = .absent) :
    Runs.run (step layout) repository (members.map fun rank => (rank, graph)) =
      some { repository with
        phase := fun rank => if rank ∈ members then .electing else repository.phase rank } := by
  induction members generalizing repository with
  | nil => simp
  | cons first rest ih =>
      have ⟨fresh, distinct'⟩ := List.nodup_cons.mp distinct
      have missed : step layout repository (first, graph) =
          some (repository.move first .electing) := by
        have at_ := phase first List.mem_cons_self
        have file := absent first List.mem_cons_self
        simp [step, inside first List.mem_cons_self, at_, file]
      rw [List.map_cons, Runs.run_cons, missed, Option.bind_some, ih distinct']
      · congr 2
        funext rank
        by_cases own : rank = first
        · simp [own, fresh, move]
        · simp [own, move]
      · exact fun rank member => inside rank (List.mem_cons_of_mem _ member)
      · intro rank member
        have other : rank ≠ first := fun same => fresh (same ▸ member)
        simpa [move, other] using phase rank (List.mem_cons_of_mem _ member)
      · exact fun rank member => absent rank (List.mem_cons_of_mem _ member)

/-- A worker that is through without the collective operations stays so, and whoever of its group
is in the first of them stays there. -/
theorem step_waits {found : Option (List α)} (through : repository.phase rank = .finished false found)
    (inGroup : rank ∈ layout.group other) (waits : repository.phase other = .electing)
    {turn : Nat × α} (stepped : step layout repository turn = some next) :
    next.phase rank = .finished false found ∧ next.phase other = .electing := by
  obtain ⟨mover, graph⟩ := turn
  obtain ⟨-, moved⟩ := step_cases stepped
  have notRank : rank ≠ mover := by
    rintro rfl
    cases moved <;> simp_all
  have notOther : other ≠ mover := by
    rintro rfl
    cases moved with
    | win phase joined least =>
        have entered := joined rank inGroup
        simp [through, Phase.joined] at entered
    | lose phase joined greater =>
        have entered := joined rank inGroup
        simp [through, Phase.joined] at entered
    | miss phase | find phase | create phase | write _ phase | meet _ phase | read _ _ phase =>
        simp [phase] at waits
  rw [moved.phase_of_ne notRank, moved.phase_of_ne notOther]
  exact ⟨through, waits⟩

theorem run_waits {found : Option (List α)} (through : repository.phase rank = .finished false found)
    (inGroup : rank ∈ layout.group other) (waits : repository.phase other = .electing)
    {turns : List (Nat × α)} (ran : Runs.run (step layout) repository turns = some next) :
    next.phase other = .electing :=
  (Runs.run_invariant
    (fun repository => repository.phase rank = .finished false found ∧
      repository.phase other = .electing)
    (fun _ _ _ both stepped => step_waits both.1 inGroup both.2 stepped) ⟨through, waits⟩ ran).2

theorem run_overtaken {least : Nat} (inside : rank ∈ layout.workers)
    (worker : least ∈ layout.workers) (minimum : layout.IsMinRank least)
    (elects : ∀ other ∈ layout.group least, repository.phase other = .electing)
    (checks : repository.phase rank = .checking) (shared : layout.file rank = layout.file least)
    (graph : α) :
    ∃ turns final, Runs.run (step layout) repository turns = some final ∧
      final.phase rank = .finished false none ∧
      ∀ other, other ≠ rank → other ≠ least → final.phase other = repository.phase other := by
  have own : repository.phase least = .electing :=
    elects least (Layout.mem_group.mpr ⟨worker, rfl⟩)
  have outside : rank ≠ least := by
    rintro rfl
    simp [checks] at own
  have joined : ∀ other ∈ layout.group least, (repository.phase other).joined = true := by
    intro other near
    rw [elects other near]
    rfl
  have won : step layout repository (least, graph) = some (repository.move least .creating) := by
    simp only [step, own, not_not.mpr worker, if_false, if_pos joined, if_pos minimum]
  let begun : Repository F α :=
    { (repository.move least .creating).move least (.writing graph) with
      disk := Function.update repository.disk (layout.file least) .begun
      generated := (least, graph) :: repository.generated }
  have began : step layout (repository.move least .creating) (least, graph) = some begun := by
    simp [step, move, worker, begun]
  have found : step layout begun (rank, graph) = some (begun.move rank (.reading false [])) := by
    simp [step, move, inside, begun, outside, checks, shared]
  have read : step layout (begun.move rank (.reading false [])) (rank, graph) =
      some ((begun.move rank (.reading false [])).move rank (.finished false none)) := by
    simp [step, move, inside, begun, shared, Repository.read, readInto]
  refine ⟨[(least, graph), (least, graph), (rank, graph), (rank, graph)],
    (begun.move rank (.reading false [])).move rank (.finished false none), ?_, ?_, ?_⟩
  · simp only [Runs.run_cons, won, began, found, read, Option.bind_some, Runs.run_nil]
  · simp [move]
  · intro other notRank notLeast
    simp [move, begun, notRank, notLeast]

def gathered (layout : Layout F) (disk : F → File α) (rank maker : Nat) : Repository F α :=
  { start disk with
    phase := fun other =>
      if other ∈ (layout.group rank).filter (· ≠ rank) ++ layout.group maker then .electing
      else .checking }

section Wedged

variable {disk : F → File α} {maker : Nat}

theorem run_gathered (inside : rank ∈ layout.workers) (inside' : maker ∈ layout.workers)
    (together : ∀ first ∈ layout.workers, ∀ second ∈ layout.workers,
      layout.colour first = layout.colour second → layout.file first = layout.file second)
    (shared : layout.file rank = layout.file maker)
    (absent : disk (layout.file rank) = .absent)
    (apart : layout.colour rank ≠ layout.colour maker) (graph : α) :
    ∃ turns, Runs.run (step layout) (start disk) turns =
      some (gathered layout disk rank maker) := by
  have grouped : ∀ other ∈ (layout.group rank).filter (· ≠ rank) ++ layout.group maker,
      other ∈ layout.workers ∧ disk (layout.file other) = .absent := by
    intro other member
    rcases List.mem_append.mp member with near | far
    · have ⟨worker, own⟩ := Layout.mem_group.mp (List.mem_of_mem_filter near)
      exact ⟨worker, together other worker rank inside own ▸ absent⟩
    · have ⟨worker, own⟩ := Layout.mem_group.mp far
      exact ⟨worker, together other worker maker inside' own ▸ shared ▸ absent⟩
  have distinct : ((layout.group rank).filter (· ≠ rank) ++ layout.group maker).Nodup := by
    refine List.Nodup.append ((layout.nodup.filter _).filter _) (layout.nodup.filter _) ?_
    intro other near far
    have own := (Layout.mem_group.mp (List.mem_of_mem_filter near)).2
    exact apart (own.symm.trans (Layout.mem_group.mp far).2)
  exact ⟨_, run_misses graph distinct (fun other member => (grouped other member).1)
    (fun _ _ => rfl) (fun other member => (grouped other member).2)⟩

/-- A worker can find the file of another group before it is complete: it gets no graph, and
whoever of its group has begun to elect a minimum rank waits for it for ever. -/
theorem run_wedges (inside : rank ∈ layout.workers) (inside' : maker ∈ layout.workers)
    (together : ∀ first ∈ layout.workers, ∀ second ∈ layout.workers,
      layout.colour first = layout.colour second → layout.file first = layout.file second)
    (shared : layout.file rank = layout.file maker)
    (absent : disk (layout.file rank) = .absent)
    (apart : layout.colour rank ≠ layout.colour maker) (graph : α) :
    ∃ turns final, Runs.run (step layout) (start disk) turns = some final ∧
      final.phase rank = .finished false none ∧
      ∀ other ∈ layout.group rank, other ≠ rank → ∀ later last,
        Runs.run (step layout) final later = some last → last.phase other = .electing := by
  obtain ⟨turns, ran⟩ := run_gathered inside inside' together shared absent apart graph
  obtain ⟨least, member, minimum⟩ := Layout.exists_minRank inside'
  have ⟨worker, own⟩ := Layout.mem_group.mp member
  have elects : ∀ other ∈ layout.group least,
      (gathered layout disk rank maker).phase other = .electing := by
    intro other near
    have ⟨worker', own'⟩ := Layout.mem_group.mp near
    exact if_pos (List.mem_append_right _ (Layout.mem_group.mpr ⟨worker', own'.trans own⟩))
  have checks : (gathered layout disk rank maker).phase rank = .checking := by
    refine if_neg fun there => ?_
    rcases List.mem_append.mp there with near | far
    · simp at near
    · exact apart (Layout.mem_group.mp far).2
  have same : layout.file rank = layout.file least :=
    shared.trans (together least worker maker inside' own).symm
  obtain ⟨turns', final, ran', through, others⟩ :=
    run_overtaken inside worker minimum elects checks same graph
  refine ⟨turns ++ turns', final, ?_, through, fun other near notRank later last ranLast => ?_⟩
  · rw [Runs.run_append, ran, Option.bind_some, ran']
  have ⟨near', own'⟩ := Layout.mem_group.mp near
  have inGroup : rank ∈ layout.group other := Layout.mem_group.mpr ⟨inside, own'.symm⟩
  refine run_waits through inGroup ?_ ranLast
  rw [others other notRank ?_]
  · exact if_pos (List.mem_append_left _ (List.mem_filter.mpr ⟨near, by simpa using notRank⟩))
  · rintro rfl
    exact apart (own'.symm.trans own)

def sharing : Layout Nat where
  workers := List.range' 1 3
  nodup := List.nodup_range'
  colour := fun rank => rank / 3
  file := fun _ => 0

theorem run_wedges_three :
    ∃ turns final, Runs.run (step (α := Nat) sharing) (start fun _ => .absent) turns = some final ∧
      final.phase 2 = .finished false none ∧
      ∀ other ∈ sharing.group 2, other ≠ 2 → ∀ later last,
        Runs.run (step sharing) final later = some last → last.phase other = .electing := by
  have member : 3 ∈ sharing.workers := by decide
  exact run_wedges (by decide) member (by decide) rfl rfl (by decide) 7

end Wedged

end Repository

end RlAqs
