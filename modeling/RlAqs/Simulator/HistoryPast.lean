import RlAqs.Simulator.ServersMatch

/-!
The arrivals on the history stack of an event lie before it, so that no response time is negative.
-/

namespace RlAqs

open Handlers EventGenerator

def Entry.Past (entry : Entry) : Prop := ∀ time ∈ entry.eventArrivals, time ≤ entry.arrival

namespace Entry.Past

variable {entry next : Entry}

theorem mono (past : entry.Past) (arrivals : next.eventArrivals ⊆ entry.eventArrivals)
    (later : entry.arrival ≤ next.arrival) : next.Past :=
  fun time member => (past time (arrivals member)).trans later

theorem of_empty (empty : entry.eventArrivals = []) : entry.Past := by
  simp [Entry.Past, empty]

theorem announced {uid : Nat} (new : Processor.Announced uid entry) : entry.Past := by
  cases new with
  | admin time type kind => exact of_empty rfl
  | arrival vertex startTime gap => exact of_empty rfl

theorem served (past : entry.Past) {server : Server} {uid : Nat} {serviceTime : ℚ≥0}
    (later : entry.arrival ≤ (arrivalHandler server uid entry serviceTime).2.arrival) :
    (arrivalHandler server uid entry serviceTime).2.Past := by
  intro time member
  rw [arrivalHandler_eventArrivals, List.mem_cons] at member
  rcases member with rfl | earlier
  · exact later
  · exact (past time earlier).trans later

theorem departed (past : entry.Past) (graph : Graph) (server : Server) (uid selected : Nat) :
    (departureHandler graph server uid entry selected).2.Past := by
  rcases Nat.eq_zero_or_pos (graph.outDegree entry.destination) with sink | inner
  · rw [departureHandler_home _ _ _ _ _ sink]
    exact past
  · rw [departureHandler_onward _ _ _ _ _ inner]
    exact past

theorem answers {graph : Graph} {config : Config} (past : entry.Past) {uid : Nat}
    {pushed : List Entry} (answered : ackHandler graph config uid entry = some pushed) :
    ∀ new ∈ pushed, new.Past := by
  rcases ackHandler_cases answered with
    ⟨_, rfl⟩ | ⟨type, destination, popped, copies, found, rfl, hops⟩
  · simp
  obtain ⟨first, _, arrivals, same⟩ := popEvent_fields found
  have pop : popped.Past :=
    past.mono (arrivals ▸ List.subset_cons_self _ _) (by rw [same])
  intro new member
  rcases List.mem_cons.mp member with rfl | copy
  · unfold followUp
    split <;> exact pop
  · rcases hops with rfl | ⟨_, rfl⟩
    · cases copy
    · obtain ⟨gid, source, rfl⟩ := mem_ackCopies copy
      exact pop

end Entry.Past

namespace Processor

variable {graph : Graph} {config : Config} {processor next : Processor} {choice : Choice}

def Past (processor : Processor) : Prop :=
  (∀ entry ∈ processor.pending, entry.Past) ∧ ∀ record ∈ processor.processed, record.entry.Past

theorem take_past {entry : Entry} (past : entry.Past) : (processor.take entry).Past :=
  past.mono (by rw [take_eventArrivals]; exact List.Subset.refl _) (arrival_le_take ..)

theorem Past.handled (past : Past processor) (dequeued : Dequeued processor choice)
    {servers : Int → Server} {pushed : List Entry} (new : ∀ entry ∈ pushed, entry.Past) :
    Past (processor.handled choice servers pushed) :=
  ⟨List.forall_mem_append.mpr ⟨fun entry member => past.1 entry (erase_subset member), new⟩,
    List.forall_mem_cons.mpr ⟨take_past (past.1 _ dequeued.member), past.2⟩⟩

theorem Past.step (past : Past processor) (consistent : Consistent config processor)
    (stepped : Processor.step graph config processor choice = some next) : Past next := by
  obtain ⟨dequeued, turn⟩ := step_cases stepped
  have here := past.1 _ dequeued.member
  have putBack : ∀ entry ∈ processor.take choice.entry :: processor.pending.erase choice.entry,
      entry.Past :=
    List.forall_mem_cons.mpr ⟨take_past here, fun entry member => past.1 entry (erase_subset member)⟩
  cases turn with
  | admin origin =>
      obtain ⟨pushed, effect⟩ := admin_effect (admin_cases graph config
        (processor.dequeue choice) (processor.take choice.entry) choice.gap)
      rw [Past, effect.pending, effect.processed]
      refine ⟨List.forall_mem_append.mpr ⟨fun entry member => past.1 entry (erase_subset member),
        fun entry member => ?_⟩, past.2⟩
      obtain ⟨index, bound, rfl⟩ := List.getElem_of_mem member
      exact .announced (effect.announced index bound)
  | stop origin late => exact ⟨putBack, past.2⟩
  | «break» origin inTime type empty => exact ⟨putBack, past.2⟩
  | arrival origin inTime type =>
      have begun : 0 ≤ config.stopTime := (consistent.clock_step choice).trans inTime
      have inHand := take_eq ((consistent.timed begun).future _ dequeued.member)
      refine past.handled dequeued (List.forall_mem_append.mpr ⟨fun entry member => ?_, ?_⟩)
      · rw [(mem_generated processor _ member).2]
        exact .of_empty rfl
      · rw [List.forall_mem_singleton, inHand]
        exact here.served (consistent.arrived_future dequeued)
  | departure origin inTime type =>
      exact past.handled dequeued
        (List.forall_mem_singleton.mpr ((take_past here).departed graph _ _ _))
  | ack origin inTime type pushed answered =>
      exact past.handled dequeued ((take_past here).answers answered)
  | other origin inTime type => exact past.handled dequeued (by simp)

theorem start_past (config : Config) : Past (start config) := by
  refine ⟨fun entry member => ?_, by simp [start]⟩
  obtain ⟨uid, type, _, kind, rfl⟩ := start_pending member
  exact .of_empty rfl

theorem run_past {choices : List Choice} {final : Processor}
    (ran : Runs.run (Processor.step graph config) (start config) choices = some final) :
    Past final := by
  refine run_keeps (start_past config) ?_ ran
  exact fun _ _ _ consistent past stepped => past.step consistent stepped

end Processor

end RlAqs
