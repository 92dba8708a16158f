import RlAqs.Simulator.QueuedTies

/-!
The loop over the ladder queue does not get stuck: it goes on until `process` returns, and the
arrivals from outside bound its turns.
-/

namespace RlAqs

namespace QueuedLoop

open Handlers

variable {graph : Graph} {config : Config} {queued next final : QueuedLoop} {loop : EventLoop}
  {draws : TurnDraws}

theorem handle_exists (accounted : queued.session.Accounted) (entry : Entry) :
    (∃ next, queued.handle graph config entry draws = some next) ∨
      entry.origin ≠ adminEvent ∧ entry.arrival ≤ config.stopTime ∧
        (queued.processor [] false).handle graph config entry (draws.choice entry) = none := by
  unfold handle
  split
  · refine .inl ?_
    rcases admin_matches graph config accounted entry draws.gap with
      ⟨refused, _⟩ | ⟨_, _, taken, _⟩
    · simp [refused, caught]
    · simp [taken]
  rename_i origin
  split
  · obtain ⟨_, _, ran, _⟩ := drain_spec accounted (Nat.lt_succ_self _)
    exact .inl (by simp [post, ran])
  rename_i inTime
  cases handled : (queued.processor [] false).handle graph config entry (draws.choice entry) with
  | none => exact .inr ⟨origin, not_lt.mp inTime, rfl⟩
  | some result =>
      refine .inl ?_
      rcases push_cases accounted result.2 with ⟨refused, _⟩ | ⟨_, taken, _⟩
      · simp [refused, caught]
      · simp [taken]

theorem step_exists (accounted : queued.session.Accounted) (running : queued.returned = none) :
    (∃ next, step graph config queued draws = some next) ∨
      ∃ entry queue, Took queued entry queue ∧
        (queued.take entry queue).2.origin ≠ adminEvent ∧
        (queued.take entry queue).2.arrival ≤ config.stopTime ∧
        ((queued.take entry queue).1.processor [] false).handle graph config
          (queued.take entry queue).2 (draws.choice (queued.take entry queue).2) = none := by
  unfold step
  rw [if_neg (by simp [running])]
  rcases Session.call_dequeue_cases accounted.valid with
    ⟨_, empty, _⟩ | ⟨middle, first, rest, served, list, taken, called⟩
  · simp only [empty]
    exact .inl ⟨_, rfl⟩
  have took : Took queued first (middle.popped first rest) := by
    refine ⟨called, ?_, rfl, by rw [taken]⟩
    rw [LadderQueue.popped_held list, served.held accounted.valid]
  have kept : (queued.take first (middle.popped first rest)).1.session.Accounted :=
    accounted.next called
  simp only [taken]
  rcases handle_exists kept (queued.take first (middle.popped first rest)).2 with
    handled | stuck
  · exact .inl handled
  · exact .inr ⟨first, _, took, stuck⟩

theorem handle_none {processor : Processor} {entry : Entry} {choice : Choice}
    (empty : processor.handle graph config entry choice = none) :
    entry.type ≠ departureEvent := by
  intro type
  simp [Processor.handle, type] at empty

/-- The jobs in flight keep a stop on their history until they have left. -/
theorem Refined.goes_on (refined : Refined config queued loop) (positive : 0 ≤ config.stopTime)
    (conserved : Processor.Conserved graph loop.processor) (running : queued.returned = none)
    (draws : TurnDraws) : ∃ next, QueuedLoop.step graph config queued draws = some next := by
  rcases @step_exists graph config queued draws refined.tallied.accounted running with
    goesOn | ⟨entry, queue, took, origin, inTime, empty⟩
  · exact goesOn
  obtain ⟨_, _, processor, _, matched⟩ :=
    @Refined.matched graph config queued loop draws refined positive running entry queue took
  have inHand : (queued.take entry queue).2 = entry := by rw [matched.taken]
  rw [inHand] at origin inTime empty
  have routed : Processor.Routed graph loop.processor (draws.choice entry) :=
    fun departure => absurd departure (handle_none empty)
  have undefined := matched.break origin inTime empty
  rw [(conserved.step routed matched.done).defined] at undefined
  cases undefined

/-- On an acyclic network the loop over the ladder queue goes on until `process` returns, and the
arrivals from outside bound the turns it takes. -/
theorem run_goes_on (acyclic : Reach.Acyclic graph.edges) (positive : 0 < config.stopTime)
    (interval : 0 < config.systemStatsInterval) {draws : List TurnDraws}
    (ran : run graph config draws = some final) (undisturbed : final.undisturbed = true)
    (routed : RoutedAlong graph config draws) :
    draws.length ≤ turnBound graph config (arrivals (final.processor [] false)) ∧
      (final.returned = none → ∀ draws, ∃ next, step graph config final draws = some next) := by
  obtain ⟨choices, loop, drawn, ranLoop, refined, along⟩ :=
    run_refined positive.le ran undisturbed
  have guarded := EventLoop.run_guarded positive.le ranLoop (along routed)
  have length := EventLoop.run_length positive interval acyclic ranLoop (along routed)
  refine ⟨?_, refined.goes_on positive.le guarded.conserved⟩
  rw [← drawn, List.length_map]
  refine length.trans (le_of_eq ?_)
  rw [refined.represents.processor]
  rfl

theorem line_acyclic : Reach.Acyclic Processor.line.edges :=
  Reach.acyclic_of_rank (fun vertex => 1 - vertex) (by decide)

theorem run_goes_on_crossings :
    ∃ final, run Processor.line { stopTime := 6 } (crossings 16) = some final ∧
      16 ≤ turnBound Processor.line { stopTime := 6 } (arrivals (final.processor [] false)) ∧
      ∀ draws, ∃ next, step Processor.line { stopTime := 6 } final draws = some next := by
  have checked : ∃ final ∈ run Processor.line { stopTime := 6 } (crossings 16),
      final.returned = none ∧ final.undisturbed = true := by
    decide +kernel
  obtain ⟨final, ran, running, undisturbed⟩ := checked
  have answers : ∀ queued ∈ (start { stopTime := 6 }).toOption,
      Runs.checkAlong (step Processor.line { stopTime := 6 })
        (fun queued draws => decide (Routed Processor.line queued draws)) queued
        (crossings 16) = true := by
    decide +kernel
  have routed : RoutedAlong Processor.line { stopTime := 6 } (crossings 16) := by
    intro queued started
    exact Runs.along_of_check (answers queued (by rw [started]; rfl))
  have facts := run_goes_on line_acyclic (by decide +kernel) (by decide) ran undisturbed routed
  exact ⟨final, ran, facts.1, facts.2 running⟩

end QueuedLoop

end RlAqs
