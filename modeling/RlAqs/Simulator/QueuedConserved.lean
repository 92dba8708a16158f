import RlAqs.Simulator.JobsRetrace
import RlAqs.Simulator.QueuedCases

/-!
No event is lost: whatever the queue does to the order, every event that was constructed is
processed, handled as an admin event, recorded as unprocessed or still in the queue, exactly
once, and nothing is left in the queue when `process` returns true.
-/

namespace RlAqs

namespace QueuedLoop

open Handlers

variable {graph : Graph} {config : Config} {loop next final : QueuedLoop} {draws : TurnDraws}

def consumed (loop : QueuedLoop) : List Entry :=
  loop.processed.map Record.entry ++ loop.administered ++ loop.unprocessed

structure Tallied (loop : QueuedLoop) : Prop where
  accounted : loop.session.Accounted
  numbered : loop.Numbered
  consumed : loop.returned ≠ some false → (loop.session.dequeued.map Entry.gid).Perm
    (loop.consumed.map Entry.gid)
  running : loop.returned = none → loop.unprocessed = []
  closed : loop.returned = some true → loop.session.queue.held = 0

theorem initial_tallied : initial.Tallied where
  accounted := Session.init_accounted
  numbered := rfl
  consumed := fun _ => List.Perm.refl []
  running := fun _ => rfl
  closed := fun returned => by cases returned

theorem Enqueued.tallied {entries : List Entry} (enqueued : Enqueued loop entries next)
    (tallied : loop.Tallied) (fresh : Fresh loop.uid entries)
    (running : loop.returned = none) : next.Tallied := by
  have fields := enqueued.fields
  refine ⟨enqueued.accounted tallied.accounted, enqueued.numbered tallied.numbered fresh, ?_, ?_, ?_⟩
  · intro _
    rw [fields.dequeued, QueuedLoop.consumed, fields.processed, fields.administered,
      fields.unprocessed]
    exact tallied.consumed (by simp [running])
  · intro _
    rw [fields.unprocessed]
    exact tallied.running running
  · intro returned
    rw [fields.returned, running] at returned
    cases returned

theorem start_exists (config : Config) : ∃ loop, start config = .ok loop ∧
    Enqueued initial ((Processor.start config).pending) loop ∧
    ∀ stopped, (loop.processor (Processor.start config).pending stopped) =
      { Processor.start config with stopped := stopped } := by
  rcases @push_cases initial Session.init_accounted (Processor.start config).pending with
    ⟨_, entry, member, past⟩ | ⟨loop, taken, enqueued, same⟩
  · obtain ⟨uid, type, _, _, rfl⟩ := Processor.start_pending member
    exact absurd past (lt_irrefl 0)
  · refine ⟨loop, taken, enqueued, fun stopped => ?_⟩
    have pushed := same [] stopped
    rw [List.nil_append] at pushed
    rw [← pushed]
    simp [Processor.push, processor, initial, Processor.start]

theorem fresh_start (config : Config) : Fresh 0 (Processor.start config).pending :=
  fresh_mapIdx _ fun _ _ => by simp [EventGenerator.generateAdminEventType, Entry.new]

theorem start_tallied {loop : QueuedLoop} (started : start config = .ok loop) :
    loop.Tallied ∧ loop.returned = none := by
  obtain ⟨first, same, enqueued, _⟩ := start_exists config
  rw [started, Except.ok.injEq] at same
  subst same
  exact ⟨enqueued.tallied initial_tallied (fresh_start config) rfl, enqueued.fields.returned⟩

@[simp] theorem take_gid (loop : QueuedLoop) (entry : Entry) (queue : LadderQueue) :
    (loop.take entry queue).2.gid = entry.gid := by
  simp only [take]
  split <;> rfl

theorem Handled.tallied {entry : Entry} (handled : Handled graph config loop entry draws next)
    (accounted : loop.session.Accounted) (numbered : loop.Numbered)
    (consumed : (loop.session.dequeued.map Entry.gid).Perm
      (entry.gid :: loop.consumed.map Entry.gid))
    (running : loop.returned = none) (unprocessed : loop.unprocessed = []) : next.Tallied := by
  cases handled with
  | admin origin after pushed enqueued fresh same =>
      have fields := enqueued.fields
      refine ⟨enqueued.accounted accounted, enqueued.numbered numbered fresh, fun _ => ?_,
        fun _ => fields.unprocessed.trans unprocessed, fun returned => ?_⟩
      · dsimp only
        rw [fields.dequeued]
        refine consumed.trans ?_
        simp only [QueuedLoop.consumed, fields.processed, fields.administered,
          fields.unprocessed, List.map_append, List.map_cons, List.append_assoc,
          List.cons_append]
        exact List.perm_middle.symm
      · rw [fields.returned.trans running] at returned
        cases returned
  | stop origin late drained last ended =>
      refine ⟨ended.accounted, ?_, fun _ => ?_, fun returned => ?_, fun _ => ended.empty⟩
      · simp only [Numbered, ended.accepted]
        exact numbered
      · dsimp only
        rw [ended.dequeued, List.map_append]
        refine (consumed.append_right _).trans ?_
        simp only [QueuedLoop.consumed, unprocessed, List.append_nil, List.map_append,
          List.map_cons, List.cons_append]
        exact List.perm_middle.symm
      · cases returned
  | event origin inTime servers pushed answer after enqueued same =>
      have fields := enqueued.fields
      refine ⟨enqueued.accounted accounted, enqueued.numbered numbered (fresh_handled answer),
        fun _ => ?_, fun _ => fields.unprocessed.trans unprocessed, fun returned => ?_⟩
      · dsimp only
        rw [fields.dequeued]
        refine consumed.trans ?_
        simp only [QueuedLoop.consumed, fields.processed, fields.administered,
          fields.unprocessed, List.map_append, List.map_cons, List.cons_append]
        exact List.Perm.refl _
      · rw [fields.returned.trans running] at returned
        cases returned

theorem Tallied.step (tallied : loop.Tallied)
    (stepped : step graph config loop draws = some next) : next.Tallied := by
  obtain ⟨running, turn⟩ := step_cases tallied.accounted stepped
  have before := tallied.consumed (by simp [running])
  cases turn with
  | exhausted empty =>
      exact ⟨tallied.accounted, tallied.numbered, fun _ => before,
        fun returned => absurd returned (by simp), fun _ => empty⟩
  | refused entry queue took past =>
      exact ⟨tallied.accounted.next took.called, tallied.numbered,
        fun returned => absurd rfl returned, fun returned => absurd returned (by simp),
        fun returned => absurd returned (by simp)⟩
  | handled entry queue took next handled =>
      refine handled.tallied (tallied.accounted.next took.called) tallied.numbered ?_ running
        (tallied.running running)
      simp only [take, Session.handOut, List.map_append, List.map_cons, List.map_nil]
      rw [← take_gid loop entry queue]
      refine (List.perm_append_singleton _ _).trans (List.Perm.cons _ ?_)
      exact before

theorem run_iff {draws : List TurnDraws} : run graph config draws = some final ↔
    ∃ queued, start config = .ok queued ∧
      Runs.run (QueuedLoop.step graph config) queued draws = some final := by
  obtain ⟨queued, same, _⟩ := start_exists config
  simp [run, same, Except.toOption]

theorem run_tallied {draws : List TurnDraws} (ran : run graph config draws = some final) :
    final.Tallied := by
  obtain ⟨loop, started, later⟩ := run_iff.mp ran
  exact Runs.run_invariant _ (fun _ _ _ tallied stepped => tallied.step stepped)
    (start_tallied started).1 later

/-- Every event constructed is consumed once or still waits, and none waits once `process` has
returned true. -/
theorem run_consumes {draws : List TurnDraws} (ran : run graph config draws = some final)
    (accepted : final.returned ≠ some false) :
    (List.range' 1 final.uid : Multiset Nat) =
        final.session.queue.held.map Entry.gid + (final.consumed.map Entry.gid : Multiset Nat) ∧
      (final.returned = some true → final.session.queue.size = 0 ∧
        final.session.accepted.length = final.session.dequeued.length ∧
        (final.consumed.map Entry.gid).Perm (List.range' 1 final.uid)) := by
  have tallied := run_tallied ran
  have consumed := tallied.consumed accepted
  have balance := congrArg (Multiset.map Entry.gid) tallied.accounted.balance
  rw [Multiset.map_add, Multiset.map_coe, Multiset.map_coe, tallied.numbered,
    Multiset.coe_eq_coe.mpr consumed] at balance
  refine ⟨balance, fun returned => ?_⟩
  have empty := tallied.closed returned
  have size := tallied.accounted.size_eq
  rw [tallied.accounted.valid.size_eq, empty] at size ⊢
  rw [empty, Multiset.map_zero, zero_add] at balance
  refine ⟨rfl, ?_, (Multiset.coe_eq_coe.mp balance).symm⟩
  rw [Multiset.card_zero, zero_add] at size
  exact size.symm

def crossings (turns : Nat) : List TurnDraws :=
  List.replicate turns
    { serviceTime := 1, gap := fun vertex => if vertex = 0 then (2 : ℕ) else (9 : ℕ), selected := 1 }

theorem run_consumes_crossings :
    ∃ final, run Processor.line { stopTime := 6 } (crossings 17) = some final ∧
      final.returned = some true ∧
      (final.consumed.map Entry.gid).Perm (List.range' 1 final.uid) := by
  have checked : ∃ final ∈ run Processor.line { stopTime := 6 } (crossings 17),
      final.returned = some true := by
    decide +kernel
  obtain ⟨final, ran, returned⟩ := checked
  have facts := run_consumes ran (by simp [returned])
  exact ⟨final, ran, returned, (facts.2 returned).2.2⟩

end QueuedLoop

end RlAqs
