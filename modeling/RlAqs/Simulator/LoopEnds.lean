import RlAqs.Library.DepthFirst
import RlAqs.Simulator.JobsRetrace
import RlAqs.Simulator.LoopAccepts
import Mathlib.Algebra.Order.BigOperators.Group.List
import Mathlib.Data.Rat.Floor

/-!
How many turns the loop can take. An entry is worth the turns that it and what follows from it
can still cause; a turn takes one of them, and only an arrival from outside adds any.
-/

namespace RlAqs

open Handlers

/-- How many vertices a job can still visit. -/
def rank (graph : Graph) (vertex : Int) : Nat :=
  (Reach.reachable graph.edges vertex.toNat).length

/-- An acknowledgement goes back over the stops on its stack, with a copy to every predecessor. -/
def ackTurns (graph : Graph) (stops : Nat) : Nat := stops * (graph.edges.length + 1) + 1

def departTurns (graph : Graph) (rank stops : Nat) : Nat :=
  ackTurns graph (stops + rank) + 2 * rank + 1

def arriveTurns (graph : Graph) (rank stops : Nat) : Nat := departTurns graph rank (stops + 1) + 1

def jobTurns (graph : Graph) : Nat := arriveTurns graph (graph.edges.length + 1) 0

def turns (graph : Graph) (config : Config) (entry : Entry) : Nat :=
  if entry.type = lastArrivalEvent ∨ entry.type = arrivalEvent then
    arriveTurns graph (rank graph entry.destination) entry.eventPath.length
  else if entry.type = departureEvent then
    departTurns graph (rank graph entry.destination) entry.eventPath.length
  else if entry.type = ackEvent then ackTurns graph entry.eventPath.length
  else if entry.type = generateArrivalEvent then graph.size * jobTurns graph + 1
  else if entry.type = systemStatisticsEvent then
    ⌊(config.stopTime - entry.arrival) / config.systemStatsInterval⌋₊ + 1
  else 1

def logCount (config : Config) : Nat := ⌊config.stopTime / logGraphInterval config⌋₊

def potential (graph : Graph) (config : Config) (processor : Processor) : Nat :=
  (processor.pending.map (turns graph config)).sum +
    (config.mfrwT - processor.currentTimeStep) + (logCount config - processor.counter)

def arrivals (processor : Processor) : Nat :=
  processor.processed.countP fun record => record.entry.type = lastArrivalEvent

section Ends

variable {graph : Graph} {config : Config} {processor next : Processor} {choice : Choice}
  {entry : Entry}

theorem rank_le (graph : Graph) (vertex : Int) : rank graph vertex ≤ graph.edges.length + 1 :=
  Reach.reachable_length _ _

theorem rank_lt (acyclic : Reach.Acyclic graph.edges) {source target : Int}
    (edge : graph.HasEdge source target) : rank graph target < rank graph source := by
  obtain ⟨edge, member, rfl, rfl⟩ := edge
  exact Reach.reachable_length_lt acyclic member

theorem ackTurns_mono {stops more : Nat} (fewer : stops ≤ more) :
    ackTurns graph stops ≤ ackTurns graph more :=
  Nat.add_le_add_right (Nat.mul_le_mul_right _ fewer) 1

theorem departTurns_mono {low high stops : Nat} (lower : low ≤ high) :
    departTurns graph low stops ≤ departTurns graph high stops := by
  have acks : ackTurns graph (stops + low) ≤ ackTurns graph (stops + high) :=
    ackTurns_mono (by omega)
  unfold departTurns
  omega

/-! What the entries are worth. -/

theorem turns_pos (entry : Entry) : 1 ≤ turns graph config entry := by
  unfold turns arriveTurns departTurns ackTurns
  split_ifs <;> omega

theorem turns_arrival (type : entry.type = lastArrivalEvent ∨ entry.type = arrivalEvent) :
    turns graph config entry =
      arriveTurns graph (rank graph entry.destination) entry.eventPath.length := if_pos type

theorem turns_departure (type : entry.type = departureEvent) : turns graph config entry =
    departTurns graph (rank graph entry.destination) entry.eventPath.length := by
  simp [turns, type]

theorem turns_ack (type : entry.type = ackEvent) :
    turns graph config entry = ackTurns graph entry.eventPath.length := by
  simp [turns, type]

theorem turns_generate (type : entry.type = generateArrivalEvent) :
    turns graph config entry = graph.size * jobTurns graph + 1 := by
  simp [turns, type]

theorem turns_observe (type : entry.type = systemStatisticsEvent) : turns graph config entry =
    ⌊(config.stopTime - entry.arrival) / config.systemStatsInterval⌋₊ + 1 := by
  simp [turns, type]

theorem turns_once (type : entry.type ∈ [ack1hopEvent, leaveEvent, logGraphEvent,
    serialiseArrivalEvent]) : turns graph config entry = 1 := by
  simp only [List.mem_cons, List.not_mem_nil, or_false] at type
  rcases type with type | type | type | type <;> simp [turns, type]

theorem turns_generated (graph : Graph) (config : Config) (uid : Nat) (vertex : Int) (time : ℚ)
    (gap : ℚ≥0) :
    turns graph config (EventGenerator.generateArrival uid vertex time gap) ≤ jobTurns graph := by
  rw [turns_arrival (.inl rfl)]
  exact Nat.succ_le_succ (departTurns_mono (rank_le graph vertex))

def worth (graph : Graph) (config : Config) (entries : List Entry) : Nat :=
  (entries.map (turns graph config)).sum

@[simp] theorem worth_nil : worth graph config [] = 0 := rfl

@[simp] theorem worth_singleton (entry : Entry) :
    worth graph config [entry] = turns graph config entry := by
  simp [worth]

@[simp] theorem worth_append (first second : List Entry) :
    worth graph config (first ++ second) =
      worth graph config first + worth graph config second := by
  simp [worth]

theorem worth_le {entries : List Entry} {bound : Nat}
    (each : ∀ entry ∈ entries, turns graph config entry ≤ bound) :
    worth graph config entries ≤ entries.length * bound := by
  have total := List.sum_le_card_nsmul (entries.map (turns graph config)) bound (by simpa using each)
  simpa [worth] using total

theorem worth_erase {entries : List Entry} (member : entry ∈ entries) :
    turns graph config entry + worth graph config (entries.erase entry) =
      worth graph config entries :=
  List.sum_map_erase (turns graph config) member

theorem potential_eq : potential graph config processor =
    worth graph config processor.pending + (config.mfrwT - processor.currentTimeStep) +
      (logCount config - processor.counter) := rfl

/-! Admin events. -/

theorem admin_observe (type : entry.type = systemStatisticsEvent) (gap : Int → ℚ≥0) :
    processor.admin graph config entry gap =
      processor.push (rollingSystemStatsAdminHandler config processor.uid entry) := by
  simp [Processor.admin, serialiseArrivalsHandler, generateArrivalsAdminHandler, logGraphHandler,
    type]

theorem logGraphInterval_pos (positive : 0 < config.stopTime) : 0 < logGraphInterval config := by
  unfold logGraphInterval
  split
  · rename_i rate
    exact div_pos positive (Int.cast_pos.mpr (by omega))
  · exact positive

theorem counter_le_logCount (positive : 0 < config.stopTime) {counter : Nat}
    (inTime : (counter : ℚ) * logGraphInterval config ≤ config.stopTime) :
    counter ≤ logCount config :=
  Nat.le_floor ((le_div_iff₀ (logGraphInterval_pos positive)).mpr inTime)

theorem observe_again (interval : 0 < config.systemStatsInterval)
    (inTime : entry.arrival + config.systemStatsInterval ≤ config.stopTime) :
    ⌊(config.stopTime - (entry.arrival + config.systemStatsInterval)) /
        config.systemStatsInterval⌋₊ + 1 =
      ⌊(config.stopTime - entry.arrival) / config.systemStatsInterval⌋₊ := by
  have step : (0 : ℚ) < config.systemStatsInterval := Nat.cast_pos.mpr interval
  have shifted : (config.stopTime - (entry.arrival + config.systemStatsInterval)) /
      config.systemStatsInterval =
        (config.stopTime - entry.arrival) / config.systemStatsInterval - 1 := by
    field_simp
    ring
  have one : (1 : ℚ) ≤ (config.stopTime - entry.arrival) / config.systemStatsInterval := by
    rw [le_div_iff₀ step]
    linarith
  have positive := Nat.le_floor (n := 1) (by simpa using one)
  rw [shifted, Nat.floor_sub_one]
  omega

theorem potential_admin (positive : 0 < config.stopTime) (interval : 0 < config.systemStatsInterval)
    (graph : Graph) (processor : Processor) (entry : Entry) (gap : Int → ℚ≥0) :
    potential graph config (processor.admin graph config entry gap) + 1 ≤
      potential graph config processor + turns graph config entry := by
  by_cases logs : entry.type = logGraphEvent
  · rw [Processor.admin_log logs, turns_once (by simp [logs])]
    split
    · rename_i inTime
      have bound := counter_le_logCount positive inTime
      simp only [potential_eq, Processor.push, worth_append, worth_singleton]
      rw [turns_once (by simp [EventGenerator.generateAdminEventType, Entry.new])]
      omega
    · simp only [potential_eq, Processor.push, worth_append, worth_nil]
      omega
  by_cases observes : entry.type = systemStatisticsEvent
  · rw [admin_observe observes, turns_observe observes]
    unfold rollingSystemStatsAdminHandler
    split
    · dsimp only
      split
      · rename_i inTime
        have again := observe_again interval inTime
        simp only [potential_eq, Processor.push, worth_append, worth_singleton]
        rw [turns_observe rfl]
        simp only [EventGenerator.generateAdminEventType, Entry.new]
        omega
      · simp only [potential_eq, Processor.push, worth_append, worth_nil]
        omega
    · simp only [potential_eq, Processor.push, worth_append, worth_nil]
      omega
  have least := @turns_pos graph config entry
  generalize ended : processor.admin graph config entry gap = next
  have turn := Processor.admin_cases graph config processor entry gap
  rw [ended] at turn
  cases turn with
  | serialise type bound =>
      simp only [potential_eq, Processor.push, worth_append, worth_singleton]
      rw [turns_once (by simp [EventGenerator.generateAdminEventType, Entry.new])]
      omega
  | generate type =>
      rw [turns_generate type]
      have each : ∀ created ∈ (List.range graph.size).map (fun vertex : Nat =>
          EventGenerator.generateArrival (processor.uid + vertex) vertex entry.arrival
            (gap vertex)), turns graph config created ≤ jobTurns graph := by
        intro created member
        obtain ⟨vertex, _, rfl⟩ := List.mem_map.mp member
        exact turns_generated graph config _ vertex _ _
      have created := worth_le each
      rw [List.length_map, List.length_range] at created
      simp only [potential_eq, Processor.push, worth_append]
      omega
  | log type => exact absurd type logs
  | logAgain type => exact absurd type logs
  | observe type => exact absurd type observes
  | idle => omega

/-! The events of a vertex. -/

theorem worth_generated (graph : Graph) (config : Config) (gap : Int → ℚ≥0) :
    worth graph config (processor.generated entry gap) ≤
      if entry.type = lastArrivalEvent then jobTurns graph else 0 := by
  unfold Processor.generated
  split
  · rw [worth_singleton]
    exact turns_generated graph config _ _ _ _
  · exact Nat.le_refl 0

theorem worth_arrived (graph : Graph) (config : Config) (choice : Choice)
    (type : entry.type = lastArrivalEvent ∨ entry.type = arrivalEvent) :
    worth graph config [(processor.arrived entry choice).2] + 1 = turns graph config entry := by
  rw [worth_singleton, turns_departure (Processor.arrived_type ..), turns_arrival type,
    Processor.arrived_destination, Processor.arrived, arrivalHandler_eventPath]
  rfl

theorem worth_departed (config : Config) (acyclic : Reach.Acyclic graph.edges)
    (type : entry.type = departureEvent)
    (routed : 0 < graph.outDegree entry.destination →
      graph.HasEdge entry.destination choice.selected) :
    worth graph config [(processor.departed graph entry choice).2] + 1 ≤
      turns graph config entry := by
  rw [worth_singleton, turns_departure type, Processor.departed]
  rcases Nat.eq_zero_or_pos (graph.outDegree entry.destination) with sink | inner
  · rw [departureHandler_home _ _ _ _ _ sink, turns_ack rfl]
    have acks : ackTurns graph entry.eventPath.length ≤
        ackTurns graph (entry.eventPath.length + rank graph entry.destination) :=
      ackTurns_mono (Nat.le_add_right _ _)
    simp only [departTurns, Entry.acknowledge, Entry.copy]
    omega
  · rw [departureHandler_onward _ _ _ _ _ inner, turns_arrival (.inr rfl)]
    have lower := rank_lt acyclic (routed inner)
    have acks : ackTurns graph (entry.eventPath.length + 1 + rank graph choice.selected) ≤
        ackTurns graph (entry.eventPath.length + rank graph entry.destination) :=
      ackTurns_mono (by omega)
    simp only [arriveTurns, departTurns, Entry.depart, Entry.copy]
    omega

theorem worth_copies (graph : Graph) (config : Config) (uid : Nat) (entry : Entry)
    (destination : Int) :
    worth graph config (ackCopies graph uid entry destination) ≤ graph.edges.length := by
  have each : ∀ copy ∈ ackCopies graph uid entry destination, turns graph config copy ≤ 1 := by
    intro copy member
    obtain ⟨gid, source, rfl⟩ := mem_ackCopies member
    exact (turns_once (by simp [Entry.acknowledge])).le
  have total := worth_le each
  have fewer : (ackCopies graph uid entry destination).length ≤ graph.edges.length := by
    rw [ackCopies, List.length_mapIdx]
    refine (List.length_filter_le _ _).trans ?_
    rw [Graph.sources, List.length_map]
    exact List.length_filter_le _ _
  omega

theorem worth_answered {uid : Nat} {pushed : List Entry}
    (answered : ackHandler graph config uid entry = some pushed) :
    worth graph config pushed + 1 ≤ turns graph config entry := by
  rcases ackHandler_cases answered with ⟨_, rfl⟩ | ⟨type, destination, popped, copies, found, rfl, rest⟩
  · exact turns_pos entry
  obtain ⟨_, path, _, same⟩ := popEvent_fields found
  have stops : entry.eventPath.length = popped.eventPath.length + 1 := by rw [path]; rfl
  have first : turns graph config (followUp uid popped destination) ≤
      ackTurns graph popped.eventPath.length := by
    unfold followUp
    split
    · rw [turns_once (by simp [Entry.leave])]
      exact Nat.succ_le_succ (Nat.zero_le _)
    · rw [turns_ack rfl]
      exact Nat.le_refl _
  have later : worth graph config copies ≤ graph.edges.length := by
    rcases rest with rfl | ⟨_, rfl⟩
    · exact Nat.zero_le _
    · exact worth_copies graph config _ _ _
  have total : worth graph config (followUp uid popped destination :: copies) =
      turns graph config (followUp uid popped destination) + worth graph config copies := by
    simp [worth]
  rw [total, turns_ack type, stops]
  simp only [ackTurns, Nat.add_mul] at first ⊢
  omega

theorem arrivals_handled (servers : Int → Server) (pushed : List Entry) :
    arrivals (processor.handled choice servers pushed) = arrivals processor +
      if choice.entry.type = lastArrivalEvent then 1 else 0 := by
  simp only [arrivals, Processor.handled, List.countP_cons, Processor.take_type, decide_eq_true_eq]

/-- A turn in which `pushed` is worth less than the event in hand, but for what an arrival from
outside adds. -/
theorem potential_handled (dequeued : Processor.Dequeued processor choice)
    (servers : Int → Server) {pushed : List Entry}
    (less : worth graph config pushed + 1 ≤ turns graph config choice.entry +
      if choice.entry.type = lastArrivalEvent then jobTurns graph else 0) :
    potential graph config (processor.handled choice servers pushed) + 1 +
        jobTurns graph * arrivals processor ≤
      potential graph config processor +
        jobTurns graph * arrivals (processor.handled choice servers pushed) := by
  have erased := @worth_erase graph config _ _ dequeued.member
  rw [arrivals_handled, Nat.mul_add]
  simp only [potential_eq, Processor.handled, worth_append]
  by_cases outside : choice.entry.type = lastArrivalEvent
  · rw [if_pos outside] at less ⊢
    omega
  · rw [if_neg outside] at less ⊢
    omega

theorem potential_step (positive : 0 < config.stopTime) (interval : 0 < config.systemStatsInterval)
    (acyclic : Reach.Acyclic graph.edges) (routed : Processor.Routed graph processor choice)
    (future : processor.oldTime ≤ choice.entry.arrival)
    (stepped : Processor.step graph config processor choice = some next)
    (defined : next.undefined = false) :
    potential graph config next + 1 + jobTurns graph * arrivals processor ≤
      potential graph config processor + (if next.stopped then 1 else 0) +
        jobTurns graph * arrivals next := by
  obtain ⟨dequeued, turn⟩ := Processor.step_cases stepped
  have erased := @worth_erase graph config _ _ dequeued.member
  have taken := Processor.take_eq future
  have plain {type : Int} (kind : (processor.take choice.entry).type = type)
      (inside : type ≠ lastArrivalEvent) :
      (if choice.entry.type = lastArrivalEvent then jobTurns graph else 0) = 0 := by
    rw [Processor.take_type] at kind
    exact if_neg (kind ▸ inside)
  cases turn with
  | admin origin =>
      obtain ⟨_, effect⟩ := Processor.admin_effect (Processor.admin_cases graph config
        (processor.dequeue choice) (processor.take choice.entry) choice.gap)
      have fell := potential_admin positive interval graph (processor.dequeue choice)
        (processor.take choice.entry) choice.gap
      have dequeues : potential graph config (processor.dequeue choice) +
          turns graph config choice.entry = potential graph config processor := by
        simp only [potential_eq, Processor.dequeue]
        omega
      have same : arrivals (Processor.admin graph config (processor.dequeue choice)
          (processor.take choice.entry) choice.gap) = arrivals processor := by
        rw [arrivals, effect.processed]
        rfl
      rw [same]
      rw [taken] at fell ⊢
      omega
  | stop origin late =>
      have putBack : potential graph config { processor.dequeue choice with
          pending := processor.take choice.entry :: processor.pending.erase choice.entry
          stopped := true } = potential graph config processor := by
        rw [taken, potential_eq, potential_eq, ← erased]
        simp [worth, Processor.dequeue]
      rw [putBack]
      exact Nat.le_refl _
  | «break» origin inTime type empty => cases defined
  | arrival origin inTime type =>
      refine (potential_handled dequeued _ ?_).trans (by omega)
      have generated := @worth_generated (processor) (processor.take choice.entry) graph config
        choice.gap
      have arrived := @worth_arrived processor (processor.take choice.entry) graph config choice type
      rw [taken] at generated arrived ⊢
      rw [worth_append]
      omega
  | departure origin inTime type =>
      refine (potential_handled dequeued _ ?_).trans (by omega)
      rw [plain type (by decide)]
      rw [taken] at type ⊢
      exact @worth_departed graph processor choice _ config acyclic type (routed type)
  | ack origin inTime type pushed answered =>
      refine (potential_handled dequeued _ ?_).trans (by omega)
      have inside : (if choice.entry.type = lastArrivalEvent then jobTurns graph else 0) = 0 := by
        rcases type with type | type
        · exact plain type (by decide)
        · exact plain type (by decide)
      rw [inside]
      rw [taken] at answered
      exact worth_answered answered
  | other origin inTime type =>
      refine (potential_handled dequeued _ ?_).trans (by omega)
      rw [worth_nil]
      exact Nat.le_add_right_of_le (turns_pos choice.entry)

/-! Whole runs. -/

/-- The most turns of a run in which so many arrivals from outside are handled. -/
def turnBound (graph : Graph) (config : Config) (arrivals : Nat) : Nat :=
  potential graph config (Processor.start config) + jobTurns graph * arrivals + 1

end Ends

namespace EventLoop

variable {graph : Graph} {config : Config} {loop next final : EventLoop} {choice : Choice}
  {choices : List Choice}

def Routed (graph : Graph) (loop : EventLoop) (choice : Choice) : Prop :=
  Processor.Routed graph loop.processor choice

instance (graph : Graph) (loop : EventLoop) (choice : Choice) :
    Decidable (Routed graph loop choice) :=
  inferInstanceAs (Decidable (Processor.Routed graph loop.processor choice))

def remaining (graph : Graph) (config : Config) (loop : EventLoop) : Nat :=
  potential graph config loop.processor + if loop.returned = none then 1 else 0

structure Guarded (graph : Graph) (config : Config) (loop : EventLoop) : Prop
    extends Accepting config loop where
  conserved : Processor.Conserved graph loop.processor

theorem Guarded.step (guarded : Guarded graph config loop) (positive : 0 ≤ config.stopTime)
    (routed : Routed graph loop choice)
    (stepped : EventLoop.step graph config loop choice = some next) : Guarded graph config next := by
  refine ⟨guarded.toAccepting.step positive stepped, ?_⟩
  rcases step_cases positive guarded.consistent (guarded.going stepped) stepped with
    ⟨_, rfl⟩ | ⟨processor, done, turned⟩
  · exact guarded.conserved
  · rw [turned.turn]
    exact guarded.conserved.step routed done

theorem Guarded.falls (guarded : Guarded graph config loop) (positive : 0 < config.stopTime)
    (interval : 0 < config.systemStatsInterval) (acyclic : Reach.Acyclic graph.edges)
    (routed : Routed graph loop choice)
    (stepped : EventLoop.step graph config loop choice = some next) :
    remaining graph config next + 1 + jobTurns graph * arrivals loop.processor ≤
      remaining graph config loop + jobTurns graph * arrivals next.processor := by
  have running := (step_running stepped).1
  have conserved := (guarded.step positive.le routed stepped).conserved
  rcases step_cases positive.le guarded.consistent (guarded.going stepped) stepped with
    ⟨_, rfl⟩ | ⟨processor, done, turned⟩
  · simp [remaining, running]
  · have dequeued := (Processor.step_cases done).1
    have future := (guarded.consistent.timed positive.le).future _ dequeued.member
    rw [turned.turn] at conserved
    have fell := potential_step positive interval acyclic routed future done conserved.defined
    rw [remaining, remaining, running, turned.returned, turned.turn]
    cases stopped : processor.stopped with
    | true =>
        rw [stopped] at fell
        simpa using fell
    | false =>
        rw [stopped] at fell
        simp only [if_true, Bool.false_eq_true, if_false] at fell ⊢
        omega

theorem run_guarded (positive : 0 ≤ config.stopTime)
    (ran : Runs.run (EventLoop.step graph config) (start config) choices = some final)
    (routed : Runs.Along (EventLoop.step graph config) (Routed graph) (start config) choices) :
    Guarded graph config final :=
  Runs.run_invariant_along _
    (fun _ _ _ guarded routed stepped => guarded.step positive routed stepped)
    ⟨start_accepting config, Processor.start_conserved graph config⟩ routed ran

theorem run_length (positive : 0 < config.stopTime) (interval : 0 < config.systemStatsInterval)
    (acyclic : Reach.Acyclic graph.edges)
    (ran : Runs.run (EventLoop.step graph config) (start config) choices = some final)
    (routed : Runs.Along (EventLoop.step graph config) (Routed graph) (start config) choices) :
    choices.length ≤ turnBound graph config (arrivals final.processor) := by
  have bound := Runs.run_length_le (Guarded graph config) (remaining graph config)
    (fun loop => jobTurns graph * arrivals loop.processor)
    (fun _ _ _ guarded routed stepped => guarded.step positive.le routed stepped)
    (fun _ _ _ guarded routed stepped => guarded.falls positive interval acyclic routed stepped)
    ⟨start_accepting config, Processor.start_conserved graph config⟩ routed ran
  have initial : remaining graph config (start config) =
      potential graph config (Processor.start config) + 1 := rfl
  rw [initial] at bound
  rw [turnBound]
  omega

end EventLoop

end RlAqs
