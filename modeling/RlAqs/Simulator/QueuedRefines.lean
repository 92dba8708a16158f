import RlAqs.Simulator.LoopEnds
import RlAqs.Simulator.QueuedConserved

/-!
The loop over the ladder queue refines the loop over a queue that hands events out in time
order, as long as no push disturbs the order of the ladder queue.
-/

namespace RlAqs

namespace QueuedLoop

open Handlers

variable {graph : Graph} {config : Config} {queued next final : QueuedLoop} {loop : EventLoop}
  {draws : TurnDraws}

/-- The two loops agree, and the ladder queue holds the pending events. -/
structure Represents (queued : QueuedLoop) (loop : EventLoop) : Prop where
  processor : loop.processor =
    queued.processor loop.processor.pending loop.processor.stopped
  pending : (loop.processor.pending : Multiset Entry) =
    queued.session.queue.held + (queued.unprocessed : Multiset Entry)
  returned : loop.returned = queued.returned
  corrected : loop.corrected = queued.corrected

structure Refined (config : Config) (queued : QueuedLoop) (loop : EventLoop) : Prop where
  represents : Represents queued loop
  accepting : EventLoop.Accepting config loop
  ordered : queued.session.Ordered
  tallied : queued.Tallied

def first (queued : QueuedLoop) : Option Entry := queued.session.queue.dequeue.1.toOption.join

def Routed (graph : Graph) (queued : QueuedLoop) (draws : TurnDraws) : Prop :=
  ∀ entry ∈ queued.first, entry.type = departureEvent →
    0 < graph.outDegree entry.destination → graph.HasEdge entry.destination draws.selected

instance (graph : Graph) (queued : QueuedLoop) (draws : TurnDraws) :
    Decidable (Routed graph queued draws) :=
  inferInstanceAs (Decidable (∀ entry ∈ queued.first, _ → _ → _))

theorem Took.first {entry : Entry} {queue : LadderQueue} (took : Took queued entry queue) :
    queued.first = some entry := by
  rw [QueuedLoop.first, took.result]
  rfl

theorem take_of_future {entry : Entry} {queue : LadderQueue}
    (future : queued.oldTime ≤ entry.arrival) :
    queued.take entry queue =
      ({ queued with session := queued.session.handOut entry queue, oldTime := entry.arrival },
        entry) := by
  simp only [take, decide_eq_false (not_lt.mpr future), Bool.or_false, Bool.false_eq_true,
    if_false]

structure Matched (graph : Graph) (config : Config) (queued : QueuedLoop) (loop : EventLoop)
    (entry : Entry) (queue : LadderQueue) (draws : TurnDraws) (processor : Processor) : Prop where
  future : queued.oldTime ≤ entry.arrival
  clock : 0 ≤ entry.arrival
  left : (loop.processor.pending.erase entry : Multiset Entry) = queue.held
  admin : entry.origin = adminEvent →
    processor = ((queued.take entry queue).1.processor (loop.processor.pending.erase entry)
      false).admin graph config entry draws.gap
  stop : entry.origin ≠ adminEvent → config.stopTime < entry.arrival →
    processor = (queued.take entry queue).1.processor
      (entry :: loop.processor.pending.erase entry) true
  event : entry.origin ≠ adminEvent → entry.arrival ≤ config.stopTime →
    ∀ servers pushed, ((queued.take entry queue).1.processor [] false).handle graph config entry
      (draws.choice entry) = some (servers, pushed) →
    processor = { ((queued.take entry queue).1.processor (loop.processor.pending.erase entry)
        false).push pushed with
      servers := servers
      processed := ⟨entry, draws.serviceTime, pushed⟩ :: queued.processed }
  «break» : entry.origin ≠ adminEvent → entry.arrival ≤ config.stopTime →
    ((queued.take entry queue).1.processor [] false).handle graph config entry
      (draws.choice entry) = none → processor.undefined = true
  done : Processor.step graph config loop.processor (draws.choice entry) = some processor
  ahead : ∀ other ∈ processor.pending, entry.arrival ≤ other.arrival

theorem Refined.matched (refined : Refined config queued loop) (positive : 0 ≤ config.stopTime)
    (running : queued.returned = none) {entry : Entry} {queue : LadderQueue}
    (took : Took queued entry queue) :
    ∃ after, EventLoop.step graph config loop (draws.choice entry) = some after ∧
      ∃ processor, EventLoop.Turned loop processor after ∧
        Matched graph config queued loop entry queue draws processor := by
  obtain ⟨represents, accepting, ordered, tallied⟩ := refined
  have loopRunning : loop.returned = none := represents.returned.trans running
  have going : loop.processor.stopped = false := by
    rw [Bool.eq_false_iff]
    intro stopped
    rw [accepting.stopped stopped] at loopRunning
    cases loopRunning
  have state := represents.processor
  rw [going] at state
  have defined : loop.processor.undefined = false := by
    rw [state]
    rfl
  have held : (loop.processor.pending : Multiset Entry) = queued.session.queue.held := by
    rw [represents.pending, tallied.running running]
    exact add_zero _
  have member : entry ∈ loop.processor.pending := by
    rw [← Multiset.mem_coe, held, ← took.content]
    exact Multiset.mem_cons_self entry _
  have earliest : ∀ other ∈ loop.processor.pending, entry.arrival ≤ other.arrival := by
    intro other inside
    apply ordered.servesEarliest entry took.result
    rwa [ordered.accounted.pending_eq, ← held, Multiset.mem_coe]
  obtain ⟨after, stepped⟩ := @EventLoop.step_exists graph config loop (draws.choice entry)
    loopRunning defined (.inr ⟨member, earliest⟩)
  refine ⟨after, stepped, ?_⟩
  rcases EventLoop.step_cases positive accepting.consistent going stepped with
    ⟨empty, _⟩ | ⟨processor, done, turned⟩
  · rw [empty] at member
    cases member
  have inFuture := (accepting.consistent.timed positive).future entry member
  have taken : loop.processor.take (draws.choice entry).entry = entry :=
    Processor.take_eq inFuture
  have oldTime : loop.processor.oldTime = queued.oldTime := by
    rw [state]
    rfl
  have before : loop.processor.dequeue (draws.choice entry) =
      (queued.take entry queue).1.processor (loop.processor.pending.erase entry) false := by
    rw [take_of_future (oldTime ▸ inFuture), Processor.dequeue, taken]
    rw [state]
    rfl
  have processed : loop.processor.processed = queued.processed := by
    rw [state]
    rfl
  have ahead := (EventLoop.step_ahead positive accepting.consistent done).2
  have whole := done
  rw [EventLoop.entered graph config going defined ⟨member, earliest⟩, taken, before] at done
  rw [taken] at ahead
  refine ⟨processor, turned, oldTime ▸ inFuture, accepting.consistent.clock.trans inFuture, ?_,
    fun origin => ?_, fun origin late => ?_, fun origin inTime servers pushed handled => ?_,
    fun origin inTime empty => ?_, whole, ahead⟩
  · rw [← Multiset.coe_erase, held, ← took.content, Multiset.erase_cons_head]
  · rw [if_pos origin] at done
    exact (Option.some.inj done).symm
  · rw [if_neg origin, if_pos late] at done
    exact (Option.some.inj done).symm
  · have same : ((queued.take entry queue).1.processor (loop.processor.pending.erase entry)
        false).handle graph config entry (draws.choice entry) = some (servers, pushed) := handled
    rw [if_neg origin, if_neg (not_lt.mpr inTime), same, processed] at done
    exact (Option.some.inj done).symm
  · have same : ((queued.take entry queue).1.processor (loop.processor.pending.erase entry)
        false).handle graph config entry (draws.choice entry) = none := empty
    rw [if_neg origin, if_neg (not_lt.mpr inTime), same] at done
    rw [← Option.some.inj done]

section matched

variable {entry : Entry} {queue : LadderQueue} {processor : Processor} {entries : List Entry}

theorem Matched.taken (matched : Matched graph config queued loop entry queue draws processor) :
    queued.take entry queue =
      ({ queued with session := queued.session.handOut entry queue, oldTime := entry.arrival },
        entry) :=
  take_of_future matched.future

/-- What is pushed is in the processor then, and so not past. -/
theorem Matched.onTime (matched : Matched graph config queued loop entry queue draws processor)
    (inside : ∀ pushed ∈ entries, pushed ∈ processor.pending) :
    ∀ pushed ∈ entries, (queued.take entry queue).1.session.OnTime (.push pushed) := by
  intro pushed member
  have ahead := matched.ahead pushed (inside pushed member)
  rw [matched.taken]
  refine ⟨matched.clock.trans ahead, fun last found => ?_⟩
  simp only [Session.handOut, List.getLast?_append, List.getLast?_singleton, Option.some_or,
    Option.mem_def, Option.some.injEq] at found
  exact found ▸ ahead

theorem Matched.refuses_nothing
    (matched : Matched graph config queued loop entry queue draws processor)
    (took : Took queued entry queue)
    (past : Past graph config (queued.take entry queue).1 (queued.take entry queue).2 draws) :
    False := by
  have lastEvent : (queued.take entry queue).1.session.queue.bottom.lastEvent = entry.arrival := by
    rw [matched.taken]
    exact took.lastEvent
  have inHand : (queued.take entry queue).2 = entry := by rw [matched.taken]
  rw [inHand] at past
  cases past with
  | admin origin past =>
      obtain ⟨pushed, member, before⟩ := past (loop.processor.pending.erase entry) false
      rw [← matched.admin origin] at member
      rw [lastEvent] at before
      exact absurd (matched.ahead pushed member) (not_le.mpr before)
  | event origin inTime servers pushed handled past =>
      obtain ⟨new, member, before⟩ := past
      have after := matched.event origin inTime servers pushed handled
      rw [lastEvent] at before
      have inside : new ∈ processor.pending := by
        rw [after]
        exact List.mem_append_right _ member
      exact absurd (matched.ahead new inside) (not_le.mpr before)

theorem Matched.represents {after : EventLoop}
    (matched : Matched graph config queued loop entry queue draws processor)
    (represents : Represents queued loop) (turned : EventLoop.Turned loop processor after)
    (running : queued.returned = none) (unprocessed : queued.unprocessed = [])
    (accounted : (queued.take entry queue).1.session.Accounted)
    (handled : Handled graph config (queued.take entry queue).1 entry draws next) :
    Represents next after := by
  have taken := matched.taken
  have held : (queued.take entry queue).1.session.queue.held =
      (loop.processor.pending.erase entry : Multiset Entry) := by
    rw [taken, matched.left]
    rfl
  have corrected : after.corrected = (queued.take entry queue).1.corrected := by
    rw [turned.corrected, represents.corrected, taken]
  have stillRunning : (queued.take entry queue).1.returned = none := by rw [taken, running]
  have none : (queued.take entry queue).1.unprocessed = [] := by rw [taken, unprocessed]
  have sameProcessed : (queued.take entry queue).1.processed = queued.processed := by rw [taken]
  cases handled with
  | admin origin final pushed enqueued fresh same =>
      have state := (matched.admin origin).trans (same _ _)
      have fields := enqueued.fields
      refine ⟨?_, ?_, ?_, ?_⟩
      · rw [turned.turn, state]
        rfl
      · dsimp only
        rw [turned.turn, state, enqueued.held accounted, held, fields.unprocessed, none]
        simp [QueuedLoop.processor]
      · rw [turned.returned, state]
        exact (fields.returned.trans stillRunning).symm
      · exact corrected.trans fields.corrected.symm
  | stop origin late drained final ended =>
      have state := matched.stop origin late
      have content := ended.content
      rw [held] at content
      refine ⟨?_, ?_, ?_, corrected⟩
      · rw [turned.turn, state]
        rfl
      · dsimp only
        rw [turned.turn, state, ended.empty, zero_add, ← Multiset.cons_coe, content]
        rfl
      · rw [turned.returned, state]
        rfl
  | event origin inTime servers pushed handled final enqueued same =>
      have state := matched.event origin inTime servers pushed handled
      rw [same] at state
      have fields := enqueued.fields
      refine ⟨?_, ?_, ?_, ?_⟩
      · rw [turned.turn, state]
        simp only [QueuedLoop.processor, fields.processed, sameProcessed]
      · dsimp only
        rw [turned.turn, state, enqueued.held accounted, held, fields.unprocessed, none]
        simp [QueuedLoop.processor]
      · rw [turned.returned, state]
        exact (fields.returned.trans stillRunning).symm
      · exact corrected.trans fields.corrected.symm

theorem Matched.ordered
    (matched : Matched graph config queued loop entry queue draws processor)
    (ordered : (queued.take entry queue).1.session.Ordered)
    (handled : Handled graph config (queued.take entry queue).1 entry draws next)
    (undisturbed : next.undisturbed = true) : next.session.Ordered := by
  cases handled with
  | admin origin final pushed enqueued fresh same =>
      have state := (matched.admin origin).trans (same _ _)
      refine enqueued.ordered ordered undisturbed (matched.onTime fun new member => ?_)
      rw [state]
      exact List.mem_append_right _ member
  | stop origin late drained final ended => exact ended.ordered ordered
  | event origin inTime servers pushed handled final enqueued same =>
      have state := matched.event origin inTime servers pushed handled
      refine enqueued.ordered ordered undisturbed (matched.onTime fun new member => ?_)
      rw [state]
      exact List.mem_append_right _ member

end matched

theorem Refined.step (refined : Refined config queued loop) (positive : 0 ≤ config.stopTime)
    (stepped : step graph config queued draws = some next) (undisturbed : next.undisturbed = true) :
    ∃ entry after, EventLoop.step graph config loop (draws.choice entry) = some after ∧
      Refined config next after ∧
      (Routed graph queued draws → EventLoop.Routed graph loop (draws.choice entry)) := by
  obtain ⟨running, turn⟩ := step_cases refined.tallied.accounted stepped
  have tallied := refined.tallied.step stepped
  cases turn with
  | exhausted empty =>
      have none : loop.processor.pending = [] := by
        rw [← Multiset.coe_eq_zero, refined.represents.pending, empty,
          refined.tallied.running running]
        rfl
      have loopRunning := refined.represents.returned.trans running
      have defined : loop.processor.undefined = false := by
        rw [refined.represents.processor]
        rfl
      have ended : EventLoop.step graph config loop (draws.choice default) =
          some { loop with returned := some true } := by
        rw [EventLoop.step, if_neg (by simp [loopRunning, defined]), if_pos none]
      refine ⟨default, _, ended, ⟨?_, refined.accepting.step positive ended, refined.ordered,
        tallied⟩, fun _ departure => ?_⟩
      · exact { refined.represents with returned := rfl }
      · exact absurd departure (by decide : (default : Entry).type ≠ departureEvent)
  | refused entry queue took past =>
      obtain ⟨_, _, _, _, matched⟩ :=
        @Refined.matched graph config queued loop draws refined positive running entry queue took
      exact (matched.refuses_nothing took past).elim
  | handled entry queue took next handled =>
      obtain ⟨after, matching, processor, turned, matched⟩ :=
        @Refined.matched graph config queued loop draws refined positive running entry queue took
      have inHand : (queued.take entry queue).2 = entry := by rw [matched.taken]
      rw [inHand] at handled
      have kept := @Session.Ordered.call _ _ .dequeue refined.ordered trivial trivial took.called
      have before : (queued.take entry queue).1.session.Ordered := kept.1
      refine ⟨entry, after, matching, ⟨?_, refined.accepting.step positive matching,
        matched.ordered before handled undisturbed, tallied⟩, fun routed => routed entry took.first⟩
      exact matched.represents refined.represents turned running
        (refined.tallied.running running) before.accounted handled

theorem Handled.undisturbed {entry : Entry}
    (handled : Handled graph config queued entry draws next) (kept : next.undisturbed = true) :
    queued.undisturbed = true := by
  cases handled with
  | admin origin final pushed enqueued fresh same => exact enqueued.fields.undisturbed kept
  | stop origin late drained final ended => exact kept
  | event origin inTime servers pushed handled final enqueued same =>
      exact enqueued.fields.undisturbed kept

theorem Turn.undisturbed (turn : Turn graph config queued draws next)
    (kept : next.undisturbed = true) : queued.undisturbed = true := by
  cases turn with
  | exhausted empty => exact kept
  | refused entry queue took past => exact kept
  | handled entry queue took next handled => exact handled.undisturbed kept

theorem start_refined (started : start config = .ok queued) (undisturbed : queued.undisturbed = true) :
    Refined config queued (EventLoop.start config) := by
  obtain ⟨first, same, enqueued, state⟩ := start_exists config
  rw [started, Except.ok.injEq] at same
  subst same
  have fields := enqueued.fields
  refine ⟨⟨(state _).symm, ?_, fields.returned.symm, fields.corrected.symm⟩,
    EventLoop.start_accepting config, ?_, (start_tallied started).1⟩
  · rw [enqueued.held Session.init_accounted, fields.unprocessed]
    have empty : initial.session.queue.held = 0 := by decide
    rw [empty, zero_add]
    exact (add_zero _).symm
  · refine enqueued.ordered Session.init_ordered undisturbed fun entry member => ?_
    obtain ⟨uid, type, _, _, rfl⟩ := Processor.start_pending member
    exact ⟨le_refl 0, fun last found => by cases found⟩

def RoutedAlong (graph : Graph) (config : Config) (draws : List TurnDraws) : Prop :=
  ∀ queued, start config = .ok queued →
    Runs.Along (step graph config) (Routed graph) queued draws

theorem run_refined (positive : 0 ≤ config.stopTime) {draws : List TurnDraws}
    (ran : run graph config draws = some final) (undisturbed : final.undisturbed = true) :
    ∃ choices loop, choices.map Choice.draws = draws ∧
      Runs.run (EventLoop.step graph config) (EventLoop.start config) choices = some loop ∧
      Refined config final loop ∧ (RoutedAlong graph config draws →
        Runs.Along (EventLoop.step graph config) (EventLoop.Routed graph)
          (EventLoop.start config) choices) := by
  obtain ⟨queued, started, later⟩ := run_iff.mp ran
  refine @Runs.run_induction _ _ _ (fun draws final => final.undisturbed = true →
    ∃ choices loop, choices.map Choice.draws = draws ∧
      Runs.run (EventLoop.step graph config) (EventLoop.start config) choices = some loop ∧
      Refined config final loop ∧ (RoutedAlong graph config draws →
        Runs.Along (EventLoop.step graph config) (EventLoop.Routed graph)
          (EventLoop.start config) choices)) _ ?_ ?_ _ _ later undisturbed
  · exact fun kept => ⟨[], _, rfl, rfl, start_refined started kept, fun _ => trivial⟩
  · intro draws before draw after ranBefore ih stepped kept
    have tallied := run_tallied (run_iff.mpr ⟨queued, started, ranBefore⟩)
    obtain ⟨choices, loop, drawn, ranLoop, refined, along⟩ :=
      ih ((step_cases tallied.accounted stepped).2.undisturbed kept)
    obtain ⟨entry, next, matched, refinedNext, routed⟩ := refined.step positive stepped kept
    refine ⟨choices ++ [draw.choice entry], next, ?_, Runs.run_concat ranLoop matched,
      refinedNext, fun routedAlong => ?_⟩
    · rw [List.map_append, drawn]
      rfl
    · have both := (Runs.along_concat ranBefore).mp (routedAlong queued started)
      refine (Runs.along_concat ranLoop).mpr ⟨along fun other same => ?_, routed both.2⟩
      rw [started, Except.ok.injEq] at same
      exact same ▸ both.1

/-- The loop over the ladder queue runs like one over a queue in time order: the same events are
handled with the same effects, nothing is refused and the clock is never corrected. -/
theorem run_refines_loop (positive : 0 ≤ config.stopTime) {draws : List TurnDraws}
    (ran : run graph config draws = some final) (undisturbed : final.undisturbed = true) :
    (∃ choices loop, choices.map Choice.draws = draws ∧
      Runs.run (EventLoop.step graph config) (EventLoop.start config) choices = some loop ∧
      Represents final loop) ∧
    final.returned ≠ some false ∧ final.corrected = false ∧
      final.session.dequeued.Pairwise fun earlier later => earlier.arrival ≤ later.arrival := by
  obtain ⟨choices, loop, drawn, ranLoop, refined, _⟩ := run_refined positive ran undisturbed
  refine ⟨⟨choices, loop, drawn, ranLoop, refined.represents⟩, ?_, ?_, refined.ordered.served⟩
  · rw [← refined.represents.returned]
    exact refined.accepting.returned
  · rw [← refined.represents.corrected]
    exact refined.accepting.corrected

theorem run_refines_loop_crossings :
    ∃ final, run Processor.line { stopTime := 6 } (crossings 17) = some final ∧
      final.returned = some true ∧
      ∃ choices loop, choices.map Choice.draws = crossings 17 ∧
        Runs.run (EventLoop.step Processor.line { stopTime := 6 })
          (EventLoop.start { stopTime := 6 }) choices = some loop ∧ Represents final loop := by
  have checked : ∃ final ∈ run Processor.line { stopTime := 6 } (crossings 17),
      final.returned = some true ∧ final.undisturbed = true := by
    decide +kernel
  obtain ⟨final, ran, returned, undisturbed⟩ := checked
  exact ⟨final, ran, returned, (run_refines_loop (by decide +kernel) ran undisturbed).1⟩

end QueuedLoop

end RlAqs
