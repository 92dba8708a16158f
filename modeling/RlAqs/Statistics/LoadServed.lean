import RlAqs.Simulator.ServersMatch
import RlAqs.Statistics.LoadCore
import RlAqs.Statistics.MonitorReported

/-!
What a turn changes at one vertex: its server, and the two statistics that are brought up to
date when the server changes.
-/

namespace RlAqs

open Handlers

namespace Processor

variable {graph : Graph} {config : Config} {processor next : Processor} {choice : Choice}
  {vertex : Int}

def Serves (config : Config) (vertex : Int) (processor : Processor) (choice : Choice) : Prop :=
  (processor.take choice.entry).origin ≠ adminEvent ∧
    (processor.take choice.entry).arrival ≤ config.stopTime ∧
    servesEvent (processor.take choice.entry) ∧
    (processor.take choice.entry).destination = vertex

instance (config : Config) (vertex : Int) (processor : Processor) (choice : Choice) :
    Decidable (Serves config vertex processor choice) :=
  inferInstanceAs (Decidable (_ ∧ _ ∧ _ ∧ _))

theorem not_servesEvent_of_ack {entry : Entry}
    (type : entry.type = ackEvent ∨ entry.type = ack1hopEvent) : ¬servesEvent entry := by
  rintro (serves | serves | serves) <;> rw [serves] at type <;> exact absurd type (by decide)

inductive ServerTurn (config : Config) (vertex : Int) (processor : Processor) (choice : Choice)
    (after : Server) : Prop
  | unserved (other : ¬Serves config vertex processor choice)
      (same : after = processor.servers vertex)
  | arrival (serves : Serves config vertex processor choice)
      (type : (processor.take choice.entry).type = lastArrivalEvent ∨
        (processor.take choice.entry).type = arrivalEvent)
      (busy : after.busy = true)
      (queue : after.numberInQueue = (processor.servers vertex).numberInQueue +
        if (processor.servers vertex).busy then 1 else 0)
  | last (serves : Serves config vertex processor choice)
      (type : (processor.take choice.entry).type = departureEvent)
      (busy : (processor.servers vertex).busy = true)
      (empty : (processor.servers vertex).numberInQueue = 0)
      (idle : after.busy = false) (queue : after.numberInQueue = 0)
  | next (serves : Serves config vertex processor choice)
      (type : (processor.take choice.entry).type = departureEvent)
      (busy : (processor.servers vertex).busy = true)
      (waiting : 0 < (processor.servers vertex).numberInQueue)
      (still : after.busy = true)
      (queue : after.numberInQueue = (processor.servers vertex).numberInQueue - 1)

theorem Consistent.departing_busy (consistent : Consistent config processor)
    (dequeued : Dequeued processor choice)
    (type : (processor.take choice.entry).type = departureEvent)
    (same : (processor.take choice.entry).destination = vertex) :
    (processor.servers vertex).busy = true := by
  rw [take_type] at type
  rw [take_destination] at same
  exact (consistent.served vertex).busy_of_mem
    (mem_departures.mpr ⟨dequeued.member, type, same⟩)

theorem serverTurn_cases (consistent : Consistent config processor)
    (stepped : Processor.step graph config processor choice = some next) (vertex : Int) :
    ServerTurn config vertex processor choice (next.servers vertex) := by
  obtain ⟨dequeued, turn⟩ := step_cases stepped
  cases turn with
  | admin origin =>
      obtain ⟨_, effect⟩ := admin_effect (admin_cases graph config (processor.dequeue choice)
        (processor.take choice.entry) choice.gap)
      refine .unserved (fun serves => serves.1 origin) ?_
      rw [effect.servers, dequeue]
  | stop origin late => exact .unserved (fun serves => absurd serves.2.1 (not_le.mpr late)) rfl
  | «break» origin inTime type empty =>
      exact .unserved (fun serves => not_servesEvent_of_ack type serves.2.2.1) rfl
  | arrival origin inTime type =>
      by_cases same : (processor.take choice.entry).destination = vertex
      · have event : servesEvent (processor.take choice.entry) := type.imp_right .inl
        refine .arrival ⟨origin, inTime, event, same⟩ type ?_ ?_
        · simp only [handled, same, Function.update_self, arrived, arrivalHandler_busy]
        · simp only [handled, same, Function.update_self, arrived, arrivalHandler_numberInQueue,
            numEventsHandler_numberInQueue, numEventsHandler_busy]
      · refine .unserved (fun serves => same serves.2.2.2) ?_
        exact Function.update_of_ne (Ne.symm same) _ _
  | departure origin inTime type =>
      by_cases same : (processor.take choice.entry).destination = vertex
      · have serves : Serves config vertex processor choice :=
          ⟨origin, inTime, .inr (.inr type), same⟩
        have busy := consistent.departing_busy dequeued type same
        rcases (consistent.served vertex).nonneg.eq_or_lt with empty | waiting
        · refine .last serves type busy empty.symm ?_ ?_
          · simp only [handled, departed, same, Function.update_self,
              departureHandler_last _ _ _ _ _ empty.symm]
          · simp only [handled, departed, same, Function.update_self,
              departureHandler_last _ _ _ _ _ empty.symm, empty.symm]
        · refine .next serves type busy waiting ?_ ?_
          · simp only [handled, departed, same, Function.update_self,
              departureHandler_next _ _ _ _ _ waiting, busy]
          · simp only [handled, departed, same, Function.update_self,
              departureHandler_next _ _ _ _ _ waiting]
      · refine .unserved (fun serves => same serves.2.2.2) ?_
        exact Function.update_of_ne (Ne.symm same) _ _
  | ack origin inTime type pushed answered =>
      exact .unserved (fun serves => not_servesEvent_of_ack type serves.2.2.1) rfl
  | other origin inTime type =>
      refine .unserved ?_ rfl
      rintro ⟨_, _, event, _⟩
      simp only [List.mem_cons, List.not_mem_nil, or_false, not_or] at type
      rcases event with serves | serves | serves
      · exact type.1 serves
      · exact type.2.1 serves
      · exact type.2.2.1 serves

theorem unserved_server (consistent : Consistent config processor)
    (stepped : Processor.step graph config processor choice = some next)
    (other : ¬Serves config vertex processor choice) :
    next.servers vertex = processor.servers vertex := by
  cases serverTurn_cases consistent stepped vertex with
  | unserved _ same => exact same
  | arrival serves => exact absurd serves other
  | last serves => exact absurd serves other
  | next serves => exact absurd serves other

theorem Serves.going (serves : Serves config vertex processor choice)
    (stepped : Processor.step graph config processor choice = some next) :
    ¬(next.stopped = true ∨ next.undefined = true) := by
  obtain ⟨dequeued, turn⟩ := step_cases stepped
  obtain ⟨plain, inTime, event, _⟩ := serves
  have running : ¬(processor.stopped = true ∨ processor.undefined = true) := by
    simp [dequeued.running, dequeued.defined]
  cases turn with
  | admin origin => exact absurd origin plain
  | stop origin late => exact absurd inTime (not_le.mpr late)
  | «break» origin _ type empty => exact absurd event (not_servesEvent_of_ack type)
  | arrival => exact running
  | departure => exact running
  | ack => exact running
  | other => exact running

theorem not_servesEvent_of_unserved
    (stepped : Processor.step graph config processor choice = some next)
    (plain : (processor.take choice.entry).origin ≠ adminEvent)
    (going : ¬(next.stopped = true ∨ next.undefined = true))
    (other : ¬Serves config vertex processor choice)
    (here : vertex = (processor.take choice.entry).destination) :
    ¬servesEvent (processor.take choice.entry) := by
  simp only [not_or, Bool.not_eq_true] at going
  intro event
  exact other ⟨plain, inTime_of_going stepped plain going.1, event, here.symm⟩

end Processor

section Turn

variable {graph : Graph} {config : Config} {state next : Processor × Monitor}
  {choice : Choice} {vertex : Int}

open Processor

theorem leave_lastEventTime (monitor : Monitor) (entry : Entry) (vertex : Int) :
    ((monitor.leave entry).vertices vertex).lastEventTime =
        (monitor.vertices vertex).lastEventTime ∧
      ((monitor.leave entry).vertices vertex).qdt = (monitor.vertices vertex).qdt := by
  unfold Monitor.leave
  split
  · by_cases same : vertex = entry.origin
    · subst same
      simp [leaveHandler]
    · simp [Function.update_of_ne same]
  · exact ⟨rfl, rfl⟩

theorem turn_unserved (stepped : Monitor.step graph config state choice = some next)
    (other : ¬Serves config vertex state.1 choice) :
    (next.2.vertices vertex).lastEventTime = (state.2.vertices vertex).lastEventTime ∧
      (next.2.vertices vertex).qdt = (state.2.vertices vertex).qdt := by
  obtain ⟨done, same⟩ := Monitor.step_cases stepped
  rw [same]
  unfold Monitor.turn
  split
  · unfold Monitor.rollingSystemStats
    split <;> exact ⟨rfl, rfl⟩
  rename_i plain
  split
  · exact ⟨rfl, rfl⟩
  rename_i going
  obtain ⟨last, qdt⟩ := leave_lastEventTime state.2 (state.1.take choice.entry) vertex
  by_cases here : vertex = (state.1.take choice.entry).destination
  · have event := not_servesEvent_of_unserved done plain going other here
    subst here
    simp only [Monitor.postAny, Function.update_self, lastEventHandler, if_neg event,
      expectedAverageEventInQueueHandler]
    exact ⟨last, qdt⟩
  · simp only [Monitor.postAny, Function.update_of_ne here]
    exact ⟨last, qdt⟩

theorem not_leave_of_serves {entry : Entry} (event : servesEvent entry) :
    entry.type ≠ leaveEvent := by
  intro type
  rcases event with serves | serves | serves <;> rw [serves] at type <;>
    exact absurd type (by decide)

theorem Processor.Serves.reaches {processor after : Processor}
    (serves : Serves config vertex processor choice)
    (stepped : Processor.step graph config processor choice = some after) (monitor : Monitor) :
    (processor.take choice.entry).origin ≠ adminEvent ∧
      ¬(after.stopped = true ∨ after.undefined = true) ∧
      monitor.leave (processor.take choice.entry) = monitor ∧
      (processor.take choice.entry).destination = vertex := by
  have going := serves.going stepped
  obtain ⟨plain, _, event, here⟩ := serves
  exact ⟨plain, going, if_neg (not_leave_of_serves event), here⟩

theorem turn_served (stepped : Monitor.step graph config state choice = some next)
    (serves : Serves config vertex state.1 choice) :
    next.2.vertices vertex =
      lastEventHandler (expectedAverageEventInQueueHandler (next.1.servers vertex)
        (state.2.vertices vertex) (state.1.take choice.entry)) (state.1.take choice.entry) := by
  obtain ⟨done, same⟩ := Monitor.step_cases stepped
  obtain ⟨plain, going, still, rfl⟩ := serves.reaches done state.2
  rw [same, Monitor.turn, if_neg plain, if_neg going, still]
  exact Function.update_self _ _ _

variable {loads after : Utilisation.State}

theorem Utilisation.step_cases (stepped : Utilisation.step graph config loads choice = some after) :
    Monitor.step graph config loads.1 choice = some after.1 ∧
      after.2 =
        Utilisation.turn loads.2 loads.1.2 (loads.1.1.take choice.entry) after.1.1 := by
  obtain ⟨monitored, done, rfl⟩ := Option.map_eq_some_iff.mp stepped
  exact ⟨done, rfl⟩

theorem load_unserved (stepped : Utilisation.step graph config loads choice = some after)
    (other : ¬Serves config vertex loads.1.1 choice) : after.2 vertex = loads.2 vertex := by
  obtain ⟨done, same⟩ := Utilisation.step_cases stepped
  rw [same, Utilisation.turn]
  split
  · rfl
  rename_i plain
  split
  · rfl
  rename_i going
  by_cases here : vertex = (loads.1.1.take choice.entry).destination
  · have event := not_servesEvent_of_unserved (Monitor.step_cases done).1 plain going other here
    subst here
    rw [Function.update_self, utilisationHandler, if_neg event]
  · exact Function.update_of_ne here _ _

theorem load_served (stepped : Utilisation.step graph config loads choice = some after)
    (serves : Serves config vertex loads.1.1 choice) :
    after.2 vertex = utilisationHandler (after.1.1.servers vertex) (loads.1.2.vertices vertex)
      (loads.2 vertex) (loads.1.1.take choice.entry) := by
  obtain ⟨done, same⟩ := Utilisation.step_cases stepped
  obtain ⟨plain, going, still, rfl⟩ := serves.reaches (Monitor.step_cases done).1 loads.1.2
  rw [same, Utilisation.turn, if_neg plain, if_neg going, still]
  exact Function.update_self _ _ _

end Turn

end RlAqs
