import RlAqs.Simulator.QueuedPushes

/-! What a turn of the loop over the ladder queue does, case by case. -/

namespace RlAqs

namespace QueuedLoop

open Handlers

variable {graph : Graph} {config : Config} {loop next : QueuedLoop} {draws : TurnDraws}

structure Took (loop : QueuedLoop) (entry : Entry) (queue : LadderQueue) : Prop where
  called : loop.session.call .dequeue = some (loop.session.handOut entry queue)
  content : entry ::ₘ queue.held = loop.session.queue.held
  lastEvent : queue.bottom.lastEvent = entry.arrival
  result : loop.session.queue.dequeue.1 = .ok (some entry)

structure Drained (session : Session) (drained : List Entry) (final : Session) : Prop where
  accounted : final.Accounted
  content : (drained : Multiset Entry) = session.queue.held
  empty : final.queue.held = 0
  accepted : final.accepted = session.accepted
  dequeued : final.dequeued = session.dequeued ++ drained
  ordered : session.Ordered → final.Ordered
  stable : session.Stable → final.Stable

inductive Handled (graph : Graph) (config : Config) (loop : QueuedLoop) (entry : Entry)
    (draws : TurnDraws) : QueuedLoop → Prop
  | admin (origin : entry.origin = adminEvent) (next : QueuedLoop) (pushed : List Entry)
      (enqueued : Enqueued loop pushed next) (fresh : Fresh loop.uid pushed)
      (same : ∀ pending stopped,
        (loop.processor pending stopped).admin graph config entry draws.gap =
          next.processor (pending ++ pushed) stopped) :
      Handled graph config loop entry draws
        { next with administered := entry :: next.administered }
  | stop (origin : entry.origin ≠ adminEvent) (late : config.stopTime < entry.arrival)
      (drained : List Entry) (final : Session) (ended : Drained loop.session drained final) :
      Handled graph config loop entry draws
        { loop with
          unprocessed := entry :: drained
          session := final
          returned := some true }
  | event (origin : entry.origin ≠ adminEvent) (inTime : entry.arrival ≤ config.stopTime)
      (servers : Int → Server) (pushed : List Entry)
      (handled : (loop.processor [] false).handle graph config entry (draws.choice entry) =
        some (servers, pushed))
      (next : QueuedLoop) (enqueued : Enqueued loop pushed next)
      (same : ∀ pending stopped, (loop.processor pending stopped).push pushed =
        next.processor (pending ++ pushed) stopped) :
      Handled graph config loop entry draws
        { next with
          servers := servers
          processed := ⟨entry, draws.serviceTime, pushed⟩ :: next.processed }

/-- A handler pushes an event before the last one handed out. -/
inductive Past (graph : Graph) (config : Config) (loop : QueuedLoop) (entry : Entry)
    (draws : TurnDraws) : Prop
  | admin (origin : entry.origin = adminEvent)
      (past : ∀ pending stopped, ∃ pushed ∈ ((loop.processor pending stopped).admin graph
        config entry draws.gap).pending,
        pushed.arrival < loop.session.queue.bottom.lastEvent) :
      Past graph config loop entry draws
  | event (origin : entry.origin ≠ adminEvent) (inTime : entry.arrival ≤ config.stopTime)
      (servers : Int → Server) (pushed : List Entry)
      (handled : (loop.processor [] false).handle graph config entry (draws.choice entry) =
        some (servers, pushed))
      (past : ∃ new ∈ pushed, new.arrival < loop.session.queue.bottom.lastEvent) :
      Past graph config loop entry draws

inductive Turn (graph : Graph) (config : Config) (loop : QueuedLoop) (draws : TurnDraws) :
    QueuedLoop → Prop
  | exhausted (empty : loop.session.queue.held = 0) :
      Turn graph config loop draws { loop with returned := some true }
  | refused (entry : Entry) (queue : LadderQueue) (took : Took loop entry queue)
      (past : Past graph config (loop.take entry queue).1 (loop.take entry queue).2 draws) :
      Turn graph config loop draws { (loop.take entry queue).1 with returned := some false }
  | handled (entry : Entry) (queue : LadderQueue) (took : Took loop entry queue)
      (next : QueuedLoop)
      (handled : Handled graph config (loop.take entry queue).1 (loop.take entry queue).2
        draws next) :
      Turn graph config loop draws next

theorem handle_cases {entry : Entry} (accounted : loop.session.Accounted)
    (handled : loop.handle graph config entry draws = some next) :
    (Past graph config loop entry draws ∧ next = { loop with returned := some false }) ∨
      Handled graph config loop entry draws next := by
  unfold handle at handled
  split at handled
  · rename_i origin
    rcases admin_matches graph config accounted entry draws.gap with
      ⟨refused, past⟩ | ⟨after, pushed, taken, enqueued, fresh, same⟩
    · simp only [refused, caught, Option.some.injEq] at handled
      exact .inl ⟨.admin origin past, by simpa using handled.symm⟩
    · simp only [taken, Option.some.injEq] at handled
      rw [← handled]
      exact .inr (.admin origin after pushed enqueued fresh same)
  rename_i origin
  split at handled
  · rename_i late
    obtain ⟨drained, final, ran, ended, content, empty, accepted, dequeued, ordered, stable⟩ :=
      drain_spec accounted (Nat.lt_succ_self loop.session.queue.size)
    simp only [post, ran, Option.bind_some, Option.some.injEq] at handled
    rw [← handled]
    exact .inr (.stop origin late drained final
      ⟨ended, content, empty, accepted, dequeued, ordered, stable⟩)
  rename_i inTime
  rw [Option.bind_eq_some_iff] at handled
  obtain ⟨⟨servers, pushed⟩, answer, handled⟩ := handled
  rcases push_cases accounted pushed with
    ⟨refused, past⟩ | ⟨after, taken, enqueued, same⟩
  · simp only [refused, caught, Option.some.injEq] at handled
    exact .inl ⟨.event origin (not_lt.mp inTime) servers pushed answer past,
      by simpa using handled.symm⟩
  · simp only [taken, Option.some.injEq] at handled
    rw [← handled]
    exact .inr (.event origin (not_lt.mp inTime) servers pushed answer after enqueued same)

theorem step_cases (accounted : loop.session.Accounted)
    (stepped : step graph config loop draws = some next) :
    loop.returned = none ∧ Turn graph config loop draws next := by
  unfold step at stepped
  split at stepped
  · cases stepped
  rename_i running
  refine ⟨not_not.mp running, ?_⟩
  rcases Session.call_dequeue_cases accounted.valid with
    ⟨_, empty, none⟩ | ⟨middle, first, rest, served, list, taken, called⟩
  · simp only [empty, Option.some.injEq] at stepped
    rw [← stepped]
    rw [accounted.valid.size_eq] at none
    exact .exhausted (Multiset.card_eq_zero.mp none)
  · simp only [taken] at stepped
    have took : Took loop first (middle.popped first rest) := by
      refine ⟨called, ?_, rfl, by rw [taken]⟩
      rw [LadderQueue.popped_held list, served.held accounted.valid]
    have kept : (loop.take first (middle.popped first rest)).1.session.Accounted :=
      accounted.next called
    rcases handle_cases kept stepped with ⟨past, rfl⟩ | handled
    · exact .refused first _ took past
    · exact .handled first _ took next handled

end QueuedLoop

end RlAqs
