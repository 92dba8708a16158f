import RlAqs.Simulator.QueuedRefines

/-!
Events of one time are handled in the order they were constructed, as long as no push goes below
an event of its own time.
-/

namespace RlAqs

namespace QueuedLoop

open Handlers

variable {graph : Graph} {config : Config} {loop next final : QueuedLoop} {draws : TurnDraws}

theorem Handled.unmixed {entry : Entry} (handled : Handled graph config loop entry draws next)
    (kept : next.unmixed = true) : loop.unmixed = true := by
  cases handled with
  | admin origin final pushed enqueued fresh same => exact enqueued.fields.unmixed kept
  | stop origin late drained final ended => exact kept
  | event origin inTime servers pushed handled final enqueued same =>
      exact enqueued.fields.unmixed kept

theorem Handled.stable {entry : Entry} (handled : Handled graph config loop entry draws next)
    (stable : loop.session.Stable) (numbered : loop.Numbered) (unmixed : next.unmixed = true) :
    next.session.Stable := by
  cases handled with
  | admin origin final pushed enqueued fresh same =>
      exact enqueued.stable stable unmixed numbered fresh
  | stop origin late drained final ended => exact ended.stable stable
  | event origin inTime servers pushed handled final enqueued same =>
      exact enqueued.stable stable unmixed numbered (fresh_handled handled)

def Fair (loop : QueuedLoop) : Prop := loop.unmixed = true → loop.session.Stable

theorem Fair.step (fair : loop.Fair) (tallied : loop.Tallied)
    (stepped : step graph config loop draws = some next) : next.Fair := by
  intro unmixed
  obtain ⟨_, turn⟩ := step_cases tallied.accounted stepped
  cases turn with
  | exhausted empty => exact fair unmixed
  | refused entry queue took past =>
      exact @Session.Stable.call _ _ .dequeue (fair unmixed) trivial trivial took.called
  | handled entry queue took next handled =>
      have before := fair (handled.unmixed unmixed)
      have kept := @Session.Stable.call _ _ .dequeue before trivial trivial took.called
      exact handled.stable kept tallied.numbered unmixed

theorem run_fair {draws : List TurnDraws} (ran : run graph config draws = some final) :
    final.Fair := by
  obtain ⟨queued, started, later⟩ := run_iff.mp ran
  obtain ⟨_, same, enqueued, _⟩ := start_exists config
  rw [started, Except.ok.injEq] at same
  subst same
  have start : queued.Fair := fun unmixed =>
    enqueued.stable Session.init_stable unmixed rfl (fresh_start config)
  exact (Runs.run_invariant (fun loop => loop.Fair ∧ loop.Tallied)
    (fun _ _ _ both stepped => ⟨both.1.step both.2 stepped, both.2.step stepped⟩)
    ⟨start, (start_tallied started).1⟩ later).1

theorem lt_of_served {list : List Entry}
    (times : list.Pairwise fun x y => x.arrival ≤ y.arrival)
    (ages : ∀ ts, (Session.atTime list ts).Pairwise fun x y => x.gid < y.gid) :
    list.Pairwise fun x y => x.lt y = true := by
  rw [List.pairwise_iff_getElem] at times ⊢
  intro earlier later first second less
  have order := times earlier later first second less
  have age := ages list[earlier].arrival
  rw [Session.atTime, List.pairwise_filter, List.pairwise_iff_getElem] at age
  rw [Entry.lt]
  split
  · rename_i same
    exact decide_eq_true (age earlier later first second less (by simp) (by simp [same]))
  · rename_i different
    exact decide_eq_true (lt_of_le_of_ne order different)

/-- Where no push disturbs the queue or goes below an event of its time, the events come out in the
order of `operator<`: by time, and events of one time as they were constructed. -/
theorem run_in_order (positive : 0 ≤ config.stopTime) {draws : List TurnDraws}
    (ran : run graph config draws = some final) (undisturbed : final.undisturbed = true)
    (unmixed : final.unmixed = true) :
    final.session.dequeued.Pairwise fun earlier later => earlier.lt later = true := by
  obtain ⟨_, _, _, _, refined, _⟩ := run_refined positive ran undisturbed
  have stable := run_fair ran unmixed
  refine lt_of_served refined.ordered.served fun ts => ?_
  exact (stable.ages.filter _).sublist (stable.fair ts).sublist

theorem run_in_order_crossings :
    ∃ final, run Processor.line { stopTime := 6 } (crossings 17) = some final ∧
      final.session.dequeued.Pairwise fun earlier later => earlier.lt later = true := by
  have checked : ∃ final ∈ run Processor.line { stopTime := 6 } (crossings 17),
      final.undisturbed = true ∧ final.unmixed = true := by
    decide +kernel
  obtain ⟨final, ran, undisturbed, unmixed⟩ := checked
  exact ⟨final, ran, run_in_order (by decide +kernel) ran undisturbed unmixed⟩

end QueuedLoop

end RlAqs
