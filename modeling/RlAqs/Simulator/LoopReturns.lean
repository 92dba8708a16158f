import RlAqs.Simulator.LoopEnds

/-!
The loop to its end: nothing is refused and nothing lies in the past, and `process` returns
true unless the arrivals from outside before the stop time never end.
-/

namespace RlAqs

namespace EventLoop

open EventGenerator

variable {graph : Graph} {config : Config} {loop next final : EventLoop} {choice : Choice}
  {choices : List Choice}

theorem Guarded.goes_on (guarded : Guarded graph config loop) (running : loop.returned = none) :
    ∃ entry, ∀ serviceTime gap selected, ∃ next,
      EventLoop.step graph config loop ⟨entry, serviceTime, gap, selected⟩ = some next := by
  by_cases empty : loop.processor.pending = []
  · exact ⟨default, fun _ _ _ => step_exists running guarded.conserved.defined (.inl empty)⟩
  · obtain ⟨entry, member, earliest⟩ := earliest_exists empty
    exact ⟨entry, fun _ _ _ =>
      step_exists running guarded.conserved.defined (.inr ⟨member, earliest⟩)⟩

/-- No event is ever refused: in every run, whatever the handlers draw and the policy selects,
every entry is pushed at or after the clock, `process` does not return false, the clock is not
corrected and does not go back. The loop goes on until `process` returns, and the arrivals
from outside bound the turns it can take. -/
theorem run_accepts (acyclic : Reach.Acyclic graph.edges) (positive : 0 < config.stopTime)
    (interval : 0 < config.systemStatsInterval)
    (ran : Runs.run (EventLoop.step graph config) (start config) choices = some final)
    (routed : Runs.Along (EventLoop.step graph config) (Routed graph) (start config) choices) :
    (∀ push ∈ final.pushes, push.1 ≤ push.2.arrival) ∧ final.returned ≠ some false ∧
      final.corrected = false ∧
      (final.times.Pairwise fun later earlier => earlier ≤ later) ∧
      (final.returned = none → ∃ entry, ∀ serviceTime gap selected, ∃ next,
        EventLoop.step graph config final ⟨entry, serviceTime, gap, selected⟩ = some next) ∧
      choices.length ≤ turnBound graph config (arrivals final.processor) := by
  have guarded := run_guarded positive.le ran routed
  exact ⟨guarded.ahead, guarded.returned, guarded.corrected, guarded.sorted, guarded.goes_on,
    run_length positive interval acyclic ran routed⟩

def single : Graph := Graph.point

def singleConfig : Config := { stopTime := 10 }

theorem single_acyclic : Reach.Acyclic single.edges :=
  Reach.acyclic_of_rank (fun _ => 0) (by simp [single, Graph.point])

def oneJob : List Choice :=
  let job := generateArrival 1 0 0 (2 : Nat)
  let served := { job with arrival := 3, origin := 0, eventPath := [-1], eventArrivals := [2] }
  [⟨generateAdminEventType 0 0 generateArrivalEvent, 0, fun _ => (2 : Nat), 0⟩,
    ⟨job, 1, fun _ => (9 : Nat), 0⟩,
    ⟨{ served with type := departureEvent, gid := 4 }, 0, fun _ => 0, 0⟩,
    ⟨{ served with type := ackEvent, gid := 5 }, 0, fun _ => 0, 0⟩,
    ⟨{ job with arrival := 3, destination := -1, origin := 0, type := leaveEvent, gid := 6 },
      0, fun _ => 0, 0⟩,
    ⟨generateArrival 2 0 2 (9 : Nat), 0, fun _ => 0, 0⟩]

theorem run_accepts_oneJob :
    ∃ final, Runs.run (EventLoop.step single singleConfig) (start singleConfig) oneJob =
        some final ∧ final.returned = some true ∧
      (∀ push ∈ final.pushes, push.1 ≤ push.2.arrival) ∧
      oneJob.length ≤ turnBound single singleConfig (arrivals final.processor) := by
  have checked : ∃ final ∈ Runs.run (EventLoop.step single singleConfig) (start singleConfig)
      oneJob, final.returned = some true := by
    decide +kernel
  obtain ⟨final, ran, returned⟩ := checked
  obtain ⟨ahead, _, _, _, _, bound⟩ := run_accepts single_acyclic (by decide +kernel) (by decide)
    ran (Runs.along_of_check (by decide +kernel))
  exact ⟨final, ran, returned, ahead, bound⟩

/-! Streams of choices. -/

def Follows (graph : Graph) (config : Config) (stream : Nat → Choice) : Prop :=
  ∀ count, Runs.Along (EventLoop.step graph config) (Routed graph) (start config)
      ((List.range count).map stream) ∧
    ∀ loop, Runs.run (EventLoop.step graph config) (start config)
        ((List.range count).map stream) = some loop →
      loop.returned = none → ∃ next, EventLoop.step graph config loop (stream count) = some next

def Returns (graph : Graph) (config : Config) (stream : Nat → Choice) : Prop :=
  ∃ count final, Runs.run (EventLoop.step graph config) (start config)
    ((List.range count).map stream) = some final ∧ final.returned = some true

/-- `process` returns true, or the arrivals from outside never end. -/
theorem follows_returns (acyclic : Reach.Acyclic graph.edges) (positive : 0 < config.stopTime)
    (interval : 0 < config.systemStatsInterval) {stream : Nat → Choice}
    (follows : Follows graph config stream) :
    Returns graph config stream ∨ ∀ bound, ∃ count final,
      Runs.run (EventLoop.step graph config) (start config) ((List.range count).map stream) =
        some final ∧ bound < arrivals final.processor := by
  by_cases returns : Returns graph config stream
  · exact .inl returns
  refine .inr fun bound => ?_
  have running (count : Nat) : ∃ loop, Runs.run (EventLoop.step graph config) (start config)
      ((List.range count).map stream) = some loop ∧ loop.returned = none := by
    induction count with
    | zero => exact ⟨start config, rfl, rfl⟩
    | succ count ih =>
        obtain ⟨loop, ran, running⟩ := ih
        obtain ⟨next, stepped⟩ := (follows count).2 loop ran running
        have later : Runs.run (EventLoop.step graph config) (start config)
            ((List.range (count + 1)).map stream) = some next := by
          rw [Runs.run_prefix_succ, ran, Option.bind_some, stepped]
        refine ⟨next, later, ?_⟩
        have accepted := (run_accepting positive.le later).returned
        cases returned : next.returned with
        | none => rfl
        | some result =>
            cases result with
            | false => exact absurd returned accepted
            | true => exact absurd ⟨count + 1, next, later, returned⟩ returns
  obtain ⟨final, ran, _⟩ := running (turnBound graph config bound + 1)
  refine ⟨_, final, ran, ?_⟩
  have length := run_length positive interval acyclic ran (follows _).1
  rw [List.length_map, List.length_range] at length
  by_contra few
  have mono : turnBound graph config (arrivals final.processor) ≤ turnBound graph config bound :=
    Nat.succ_le_succ (Nat.add_le_add_left (Nat.mul_le_mul_left _ (not_lt.mp few)) _)
  omega

/-! Interarrival times of zero, with which the arrivals at the lone vertex never end. -/

def zeroArrival (count : Nat) : Entry := generateArrival (2 * count) 0 0 0

def zeroGaps : Nat → Choice
  | 0 => ⟨generateAdminEventType 0 0 generateArrivalEvent, 1, fun _ => 0, 0⟩
  | 1 => ⟨generateArrival 1 0 0 0, 1, fun _ => 0, 0⟩
  | count + 2 => ⟨zeroArrival (count + 1), 1, fun _ => 0, 0⟩

/-- Between two arrivals at time zero. -/
structure Stuck (count : Nat) (loop : EventLoop) : Prop where
  running : loop.returned = none
  defined : loop.processor.undefined = false
  uid : loop.processor.uid = 2 * (count + 2)
  clock : loop.processor.oldTime = 0
  member : zeroArrival (count + 1) ∈ loop.processor.pending

theorem zeroGaps_arrival (count : Nat) : (zeroGaps (count + 2)).entry.arrival = 0 := by
  simp [zeroGaps, zeroArrival, generateArrival, Entry.new]

theorem Stuck.generated {count : Nat} (stuck : Stuck count loop) :
    loop.processor.generated (zeroGaps (count + 2)).entry (zeroGaps (count + 2)).gap =
      [zeroArrival (count + 2)] := by
  have type : (zeroGaps (count + 2)).entry.type = lastArrivalEvent := rfl
  rw [Processor.generated, if_pos type, stuck.uid]
  simp [Handlers.generateArrivalsHandler, zeroArrival, generateArrival, Entry.new, zeroGaps]

theorem Stuck.turn {count : Nat} {processor : Processor} (stuck : Stuck count loop)
    (going : loop.processor.stopped = false)
    (taken : loop.processor.take (zeroGaps (count + 2)).entry = (zeroGaps (count + 2)).entry)
    (turn : Processor.Turn single singleConfig loop.processor (zeroGaps (count + 2)) processor) :
    processor.undefined = false ∧ processor.stopped = false ∧
      processor.uid = 2 * (count + 3) ∧ processor.oldTime = 0 ∧
      zeroArrival (count + 2) ∈ processor.pending := by
  have positive : (0 : ℚ) ≤ singleConfig.stopTime := by decide +kernel
  have type : (loop.processor.take (zeroGaps (count + 2)).entry).type = lastArrivalEvent := by
    rw [taken]
    rfl
  have generated : loop.processor.generated
      (loop.processor.take (zeroGaps (count + 2)).entry) (zeroGaps (count + 2)).gap =
        [zeroArrival (count + 2)] := by
    rw [taken]
    exact stuck.generated
  cases turn with
  | admin origin =>
      rw [taken] at origin
      exact absurd origin (by decide : externalEvent ≠ adminEvent)
  | stop origin late =>
      rw [taken, zeroGaps_arrival] at late
      exact absurd late (not_lt.mpr positive)
  | «break» origin inTime kind empty =>
      rw [type] at kind
      exact absurd kind (by decide)
  | arrival origin inTime kind =>
      refine ⟨stuck.defined, going, ?_, ?_, ?_⟩
      · simp only [Processor.handled, generated, List.length_append, List.length_singleton,
          stuck.uid]
        omega
      · simp only [Processor.handled]
        rw [taken, zeroGaps_arrival]
      · simp [Processor.handled, generated]
  | departure origin inTime kind =>
      rw [type] at kind
      exact absurd kind (by decide)
  | ack origin inTime kind pushed answered =>
      rw [type] at kind
      exact absurd kind (by decide)
  | other origin inTime kind =>
      rw [type] at kind
      exact absurd kind (by decide)

theorem Stuck.step {count : Nat} (stuck : Stuck count loop)
    (accepting : Accepting singleConfig loop) :
    ∃ next, EventLoop.step single singleConfig loop (zeroGaps (count + 2)) = some next ∧
      Stuck (count + 1) next := by
  have positive : (0 : ℚ) ≤ singleConfig.stopTime := by decide +kernel
  have future := (accepting.consistent.timed positive).future
  have earliest : ∀ other ∈ loop.processor.pending,
      (zeroGaps (count + 2)).entry.arrival ≤ other.arrival := by
    intro other member
    rw [zeroGaps_arrival, ← stuck.clock]
    exact future other member
  obtain ⟨next, stepped⟩ := @step_exists single singleConfig loop (zeroGaps (count + 2))
    stuck.running stuck.defined (.inr ⟨stuck.member, earliest⟩)
  refine ⟨next, stepped, ?_⟩
  rcases step_cases positive accepting.consistent (accepting.going stepped) stepped with
    ⟨empty, _⟩ | ⟨processor, done, turned⟩
  · have member := stuck.member
    rw [empty] at member
    cases member
  obtain ⟨_, turn⟩ := Processor.step_cases done
  obtain ⟨defined, stopped, uid, clock, member⟩ := stuck.turn (accepting.going stepped)
    (Processor.take_eq (future _ stuck.member)) turn
  constructor
  · rw [turned.returned, stopped]
    rfl
  · rwa [turned.turn]
  · rw [turned.turn, uid]
  · rwa [turned.turn]
  · rwa [turned.turn]

theorem zeroGaps_stuck (count : Nat) : ∃ loop, Runs.run (EventLoop.step single singleConfig)
      (start singleConfig) ((List.range (count + 2)).map zeroGaps) = some loop ∧
    Stuck count loop := by
  induction count with
  | zero =>
      have checked : ∃ loop ∈ Runs.run (EventLoop.step single singleConfig) (start singleConfig)
          ((List.range 2).map zeroGaps), loop.returned = none ∧ loop.processor.undefined = false ∧
            loop.processor.uid = 4 ∧ loop.processor.oldTime = 0 ∧
            zeroArrival 1 ∈ loop.processor.pending := by
        decide +kernel
      obtain ⟨loop, ran, running, defined, uid, clock, member⟩ := checked
      exact ⟨loop, ran, running, defined, uid, clock, member⟩
  | succ count ih =>
      obtain ⟨loop, ran, stuck⟩ := ih
      have positive : (0 : ℚ) ≤ singleConfig.stopTime := by decide +kernel
      obtain ⟨next, stepped, later⟩ := stuck.step (run_accepting positive ran)
      refine ⟨next, ?_, later⟩
      rw [Runs.run_prefix_succ, ran, Option.bind_some, stepped]

theorem zeroGaps_running (count : Nat) : ∃ loop,
    Runs.run (EventLoop.step single singleConfig) (start singleConfig)
        ((List.range count).map zeroGaps) = some loop ∧ loop.returned = none ∧
      ∃ next, EventLoop.step single singleConfig loop (zeroGaps count) = some next := by
  have prefixes (count : Nat) : ∃ loop,
      Runs.run (EventLoop.step single singleConfig) (start singleConfig)
        ((List.range count).map zeroGaps) = some loop ∧ loop.returned = none := by
    match count with
    | 0 => exact ⟨start singleConfig, rfl, rfl⟩
    | 1 =>
        have checked : ∃ loop ∈ Runs.run (EventLoop.step single singleConfig) (start singleConfig)
            ((List.range 1).map zeroGaps), loop.returned = none := by
          decide +kernel
        exact checked
    | count + 2 =>
        obtain ⟨loop, ran, stuck⟩ := zeroGaps_stuck count
        exact ⟨loop, ran, stuck.running⟩
  obtain ⟨loop, ran, running⟩ := prefixes count
  obtain ⟨_, later, _⟩ := prefixes (count + 1)
  rw [Runs.run_prefix_succ, ran, Option.bind_some] at later
  exact ⟨loop, ran, running, _, later⟩

theorem zeroGaps_follows : Follows single singleConfig zeroGaps := by
  refine fun count => ⟨Runs.along_of_forall (fun loop choice member type => ?_) _, ?_⟩
  · obtain ⟨index, _, rfl⟩ := List.mem_map.mp member
    match index with
    | 0 => exact absurd type (by decide)
    | 1 => exact absurd type (by decide)
    | index + 2 => exact absurd type (by decide : lastArrivalEvent ≠ departureEvent)
  · intro loop ran _
    obtain ⟨loop', ran', _, goes⟩ := zeroGaps_running count
    rw [ran] at ran'
    rwa [Option.some.inj ran']

/-- With interarrival times of zero the loop never ends. -/
theorem returns_not_always :
    ¬∀ (graph : Graph) (config : Config) (stream : Nat → Choice), Reach.Acyclic graph.edges →
      0 < config.stopTime → 0 < config.systemStatsInterval → Follows graph config stream →
        Returns graph config stream := by
  intro always
  obtain ⟨count, final, ran, returned⟩ := always single singleConfig zeroGaps single_acyclic
    (by decide +kernel) (by decide) zeroGaps_follows
  obtain ⟨loop, ran', running, _⟩ := zeroGaps_running count
  rw [ran] at ran'
  rw [← Option.some.inj ran', returned] at running
  cases running

end EventLoop

end RlAqs
