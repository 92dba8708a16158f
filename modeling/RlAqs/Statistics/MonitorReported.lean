import RlAqs.Library.Welford
import RlAqs.Simulator.ProcessorCases
import RlAqs.Statistics.MonitorCore
import RlAqs.Statistics.StatisticsAgree

/-!
The rolling statistics against the report. In the loop the properties of the graph are the
means over the counted events, but the post event sets them anew before they are read.
-/

namespace RlAqs

open Handlers

def meanValue (values : List (Option ℚ)) : Option ℚ :=
  (accumulateRange values).bind fun sum => divide sum values.length

/-! Sums. -/

section Sums

@[simp] theorem accumulateRange_nil : accumulateRange [] = some 0 := rfl

theorem accumulateRange_append (values : List (Option ℚ)) (x : Option ℚ) :
    accumulateRange (values ++ [x]) =
      (accumulateRange values).bind fun sum => x.map fun value => sum + value := by
  simp [accumulateRange]

theorem accumulateRange_some (values : List ℚ) : accumulateRange (values.map some) = some values.sum := by
  induction values using List.reverseRecOn with
  | nil => rfl
  | append_singleton values x ih =>
      rw [List.map_append, List.map_singleton, accumulateRange_append, ih]
      simp

theorem accumulateRange_const {α : Type} {marks : List α} (some_mark : marks ≠ []) (x : Option ℚ) :
    accumulateRange (marks.map fun _ => x) = x.map fun value => (marks.length : ℚ) * value := by
  induction marks using List.reverseRecOn with
  | nil => exact absurd rfl some_mark
  | append_singleton marks mark ih =>
      rw [List.map_append, List.map_singleton, accumulateRange_append]
      by_cases first : marks = []
      · subst first
        cases x <;> simp
      · rw [ih first]
        cases x with
        | none => rfl
        | some value =>
            simp only [Option.map_some, Option.bind_some, List.length_append, List.length_singleton]
            congr 1
            push_cast
            ring

theorem meanValue_some {values : List ℚ} (some_value : values ≠ []) :
    meanValue (values.map some) = some (Welford.mean values) := by
  have length : (values.length : ℚ) ≠ 0 :=
    Nat.cast_ne_zero.mpr (List.length_pos_iff.mpr some_value).ne'
  rw [meanValue, accumulateRange_some, Option.bind_some, List.length_map, divide, if_neg length]
  rfl

theorem meanValue_const {α : Type} {marks : List α} (some_mark : marks ≠ []) (x : Option ℚ) :
    meanValue (marks.map fun _ => x) = x := by
  have length : (marks.length : ℚ) ≠ 0 :=
    Nat.cast_ne_zero.mpr (List.length_pos_iff.mpr some_mark).ne'
  rw [meanValue, accumulateRange_const some_mark, List.length_map]
  cases x with
  | none => rfl
  | some value =>
      rw [Option.map_some, Option.bind_some, divide, if_neg length, mul_div_cancel_left₀ _ length]

end Sums

/-! The counters of the rolling statistics. -/

namespace OnlineStats

def pushValues (stats : OnlineStats) (values : List (Option ℚ)) : OnlineStats :=
  values.foldl pushValue stats

theorem pushValues_append (stats : OnlineStats) (values : List (Option ℚ)) (x : Option ℚ) :
    stats.pushValues (values ++ [x]) = (stats.pushValues values).pushValue x := by
  simp [pushValues]

/-- What the mean is computed from, after `values`. -/
structure Averages (stats : OnlineStats) (values : List (Option ℚ)) : Prop where
  n : stats.n = values.length
  oldM : stats.oldM = meanValue values
  newM : 2 ≤ values.length → stats.newM = stats.oldM

theorem meanValue_append {values : List (Option ℚ)} (some_value : values ≠ []) (x : Option ℚ) :
    meanValue (values ++ [x]) = (meanValue values).bind fun mean => x.bind fun x =>
      (divide (x - mean) (values.length + 1 : Nat)).map fun step => mean + step := by
  have positive := List.length_pos_iff.mpr some_value
  have length : (values.length : ℚ) ≠ 0 := Nat.cast_ne_zero.mpr positive.ne'
  have longer : ((values.length + 1 : Nat) : ℚ) ≠ 0 := Nat.cast_ne_zero.mpr (Nat.succ_ne_zero _)
  rw [meanValue, meanValue, accumulateRange_append, List.length_append, List.length_singleton]
  cases accumulateRange values with
  | none => rfl
  | some sum =>
      cases x with
      | none => simp [divide, length]
      | some x =>
          simp only [Option.bind_some, Option.map_some, divide, if_neg length, if_neg longer,
            Option.some.injEq]
          push_cast at longer ⊢
          field_simp
          ring

theorem push_averages {stats : OnlineStats} (empty : stats.n = 0) (x : Option ℚ) :
    (stats.pushValue x).Averages [x] := by
  cases x with
  | none =>
      have first : stats.pushValue none = { stats with n := 1, oldM := none, oldS := some 0 } := by
        simp [pushValue, empty]
      rw [first]
      exact ⟨rfl, rfl, by simp⟩
  | some x =>
      have holds := push_first empty x
      refine ⟨holds.n, ?_, by simp⟩
      have mean := @meanValue_some [x] (by simp)
      exact holds.oldM.trans mean.symm

theorem Averages.push {stats : OnlineStats} {values : List (Option ℚ)}
    (averages : stats.Averages values) (some_value : values ≠ [])
    (bound : values.length + 1 < 2 ^ 32) (x : Option ℚ) :
    (stats.pushValue x).Averages (values ++ [x]) := by
  have size : (stats.n + 1) % 2 ^ 32 = values.length + 1 := by
    rw [averages.n, Nat.mod_eq_of_lt bound]
  have later : values.length + 1 ≠ 1 := by
    have positive := List.length_pos_iff.mpr some_value
    omega
  have moved := meanValue_append some_value x
  rw [← averages.oldM] at moved
  cases x with
  | none =>
      simp only [pushValue, size, if_neg later]
      refine ⟨by simp, ?_, fun _ => rfl⟩
      rw [moved]
      cases stats.oldM <;> rfl
  | some x =>
      simp only [pushValue, OnlineStats.push, size, if_neg later]
      exact ⟨by simp, moved.symm, fun _ => rfl⟩

theorem pushValues_averages {values : List (Option ℚ)} (some_value : values ≠ [])
    (bound : values.length < 2 ^ 32) : (fresh.pushValues values).Averages values :=
  Welford.foldl_keeps (push_averages rfl) (fun averages => averages.push) some_value bound

theorem Averages.mean_eq {stats : OnlineStats} {values : List (Option ℚ)}
    (averages : stats.Averages values) (some_value : values ≠ []) :
    stats.mean = meanValue values := by
  have positive := List.length_pos_iff.mpr some_value
  rw [OnlineStats.mean, averages.n]
  split
  · rename_i many
    rw [averages.newM many, averages.oldM]
  · rw [if_pos (by omega), averages.oldM]

end OnlineStats

section Reported

variable {graph : Graph} {config : Config} {state next final : Processor × Monitor}
  {choice : Choice} {choices : List Choice} {initial : SystemStatistics}

def averages (graph : Graph) (counted : List Snapshot) : SystemStatistics where
  delay := meanValue (counted.map fun snapshot => (snapshot.system graph).delay)
  numEvents := meanValue (counted.map fun snapshot => (snapshot.system graph).numEvents)
  processingTime := meanValue (counted.map fun snapshot => (snapshot.system graph).processingTime)

/-! In the loop. -/

/-- The counters hold the events counted, and the graph their means. -/
structure Rolling (graph : Graph) (monitor : Monitor) : Prop where
  delay : monitor.delay =
    OnlineStats.fresh.pushValues (monitor.counted.map fun snapshot => (snapshot.system graph).delay)
  numEvents : monitor.numEvents = OnlineStats.fresh.pushValues
    (monitor.counted.map fun snapshot => (snapshot.system graph).numEvents)
  processingTime : monitor.processingTime = OnlineStats.fresh.pushValues
    (monitor.counted.map fun snapshot => (snapshot.system graph).processingTime)
  system : monitor.counted ≠ [] → monitor.system =
    ⟨monitor.delay.mean, monitor.numEvents.mean, monitor.processingTime.mean⟩

theorem Rolling.counts {monitor : Monitor} (rolling : Rolling graph monitor)
    (servers : Int → Server) (entry : Entry) :
    Rolling graph (monitor.rollingSystemStats graph config servers entry) := by
  unfold Monitor.rollingSystemStats
  split
  · constructor
    · simp only [List.map_append, List.map_singleton, OnlineStats.pushValues_append, rolling.delay]
    · simp only [List.map_append, List.map_singleton, OnlineStats.pushValues_append,
        rolling.numEvents]
    · simp only [List.map_append, List.map_singleton, OnlineStats.pushValues_append,
        rolling.processingTime]
    · exact fun _ => rfl
  · exact rolling

theorem Rolling.turn {monitor : Monitor} (rolling : Rolling graph monitor) (entry : Entry)
    (processor : Processor) : Rolling graph (monitor.turn graph config entry processor) := by
  unfold Monitor.turn
  split
  · exact rolling.counts processor.servers entry
  split
  · exact rolling
  · unfold Monitor.postAny Monitor.leave
    split
    · exact ⟨rolling.delay, rolling.numEvents, rolling.processingTime, rolling.system⟩
    · exact ⟨rolling.delay, rolling.numEvents, rolling.processingTime, rolling.system⟩

theorem Monitor.step_cases (stepped : Monitor.step graph config state choice = some next) :
    Processor.step graph config state.1 choice = some next.1 ∧
      next.2 = state.2.turn graph config (state.1.take choice.entry) next.1 := by
  obtain ⟨processor, done, rfl⟩ := Option.map_eq_some_iff.mp stepped
  exact ⟨done, rfl⟩

theorem Rolling.step (rolling : Rolling graph state.2)
    (stepped : Monitor.step graph config state choice = some next) : Rolling graph next.2 := by
  rw [(Monitor.step_cases stepped).2]
  exact rolling.turn _ _

theorem start_rolling (graph : Graph) (initial : SystemStatistics) :
    Rolling graph (Monitor.start initial) :=
  ⟨rfl, rfl, rfl, fun some_counted => absurd rfl some_counted⟩

theorem run_rolling
    (ran : Runs.run (Monitor.step graph config) (Processor.start config, Monitor.start initial)
      choices = some final)
    (some_counted : final.2.counted ≠ []) (bound : final.2.counted.length < 2 ^ 32) :
    final.2.system = averages graph final.2.counted := by
  have rolling : Rolling graph final.2 :=
    Runs.run_invariant (fun state => Rolling graph state.2)
      (fun _ _ _ rolling stepped => rolling.step stepped) (start_rolling graph initial) ran
  have mean (property : Snapshot → Option ℚ) :
      (OnlineStats.fresh.pushValues (final.2.counted.map property)).mean =
        meanValue (final.2.counted.map property) := by
    have some_value : final.2.counted.map property ≠ [] := by simpa using some_counted
    refine (OnlineStats.pushValues_averages some_value ?_).mean_eq some_value
    rwa [List.length_map]
  rw [rolling.system some_counted, rolling.delay, rolling.numEvents, rolling.processingTime,
    mean, mean, mean]
  rfl

/-! After the loop. -/

def atEnd (state : Processor × Monitor) : Snapshot := ⟨state.1.servers, state.2.vertices⟩

theorem report_cases {output : SimOutput} (reported : report graph state = some output) :
    output = accumResults ((atEnd state).system graph) := by
  unfold report at reported
  split at reported
  · exact (Option.some.inj reported).symm
  · cases reported

/-! Runs in which nothing changes once the first event is counted. -/

/-- No server changes at the event, and no job leaves the system: it is one of the
administration, one beyond the stop time, or one of neither sort. -/
def Quiet (config : Config) (entry : Entry) : Prop :=
  entry.origin = adminEvent ∨ config.stopTime < entry.arrival ∨
    ¬servesEvent entry ∧ entry.type ≠ leaveEvent

instance (config : Config) (entry : Entry) : Decidable (Quiet config entry) :=
  inferInstanceAs (Decidable (_ ∨ _ ∨ _))

theorem Quiet.passed {processor : Processor} {entry : Entry} (quiet : Quiet config entry)
    (origin : (processor.take entry).origin ≠ adminEvent)
    (inTime : (processor.take entry).arrival ≤ config.stopTime) :
    ¬servesEvent (processor.take entry) ∧ (processor.take entry).type ≠ leaveEvent := by
  rw [Processor.take_origin] at origin
  rcases quiet.resolve_left origin with late | passed
  · exact absurd (late.trans_le (processor.arrival_le_take entry)) (not_lt.mpr inTime)
  · rwa [servesEvent, Processor.take_type]

theorem Quiet.servers (quiet : Quiet config choice.entry) {processor after : Processor}
    (stepped : Processor.step graph config processor choice = some after) :
    after.servers = processor.servers := by
  obtain ⟨_, turn⟩ := Processor.step_cases stepped
  cases turn with
  | admin origin =>
      obtain ⟨_, effect⟩ := Processor.admin_effect (Processor.admin_cases graph config
        (processor.dequeue choice) (processor.take choice.entry) choice.gap)
      exact effect.servers
  | stop => rfl
  | «break» => rfl
  | arrival origin inTime type =>
      exact absurd (type.imp_right .inl) (quiet.passed origin inTime).1
  | departure origin inTime type => exact absurd (.inr (.inr type)) (quiet.passed origin inTime).1
  | ack => rfl
  | other => rfl

theorem Quiet.turn {processor after : Processor} (quiet : Quiet config choice.entry)
    (stepped : Processor.step graph config processor choice = some after) (monitor : Monitor) :
    (monitor.turn graph config (processor.take choice.entry) after).vertices = monitor.vertices ∧
      ∀ snapshot ∈ (monitor.turn graph config (processor.take choice.entry) after).counted,
        snapshot ∈ monitor.counted ∨ snapshot = ⟨after.servers, monitor.vertices⟩ := by
  unfold Monitor.turn
  split
  · unfold Monitor.rollingSystemStats
    split
    · exact ⟨rfl, fun snapshot member => by simpa using member⟩
    · exact ⟨rfl, fun snapshot member => .inl member⟩
  rename_i origin
  split
  · exact ⟨rfl, fun snapshot member => .inl member⟩
  · rename_i going
    simp only [not_or, Bool.not_eq_true] at going
    obtain ⟨serves, leaves⟩ := quiet.passed origin
      (Processor.inTime_of_going stepped origin going.1)
    rw [Monitor.leave, if_neg leaves, Monitor.postAny, lastEventHandler, if_neg serves,
      expectedAverageEventInQueueHandler, if_neg serves]
    exact ⟨Function.update_eq_self _ _, fun snapshot member => .inl member⟩

/-- The vertex properties are those of the snapshot, and so they were at every event counted. -/
def Still (snapshot : Snapshot) (state : Processor × Monitor) : Prop :=
  atEnd state = snapshot ∧ ∀ counted ∈ state.2.counted, counted = snapshot

theorem Still.step {snapshot : Snapshot} (still : Still snapshot state)
    (quiet : Quiet config choice.entry)
    (stepped : Monitor.step graph config state choice = some next) : Still snapshot next := by
  obtain ⟨done, same⟩ := Monitor.step_cases stepped
  have servers := quiet.servers done
  obtain ⟨vertices, counted⟩ := quiet.turn done state.2
  rw [← same] at vertices counted
  have kept : atEnd next = snapshot := by
    rw [atEnd, servers, vertices]
    exact still.1
  refine ⟨kept, fun one member => ?_⟩
  rcases counted one member with earlier | now
  · exact still.2 one earlier
  · rw [now, ← kept, atEnd, vertices]

theorem Still.averages_eq {snapshot : Snapshot} (still : Still snapshot state)
    (some_counted : state.2.counted ≠ []) :
    averages graph state.2.counted = snapshot.system graph := by
  have mean (property : Snapshot → Option ℚ) :
      meanValue (state.2.counted.map property) = property snapshot := by
    have same : state.2.counted.map property =
        state.2.counted.map fun _ => property snapshot :=
      List.map_congr_left fun one member => by rw [still.2 one member]
    rw [same, meanValue_const some_counted]
  rw [averages, mean, mean, mean]

/-- In the loop the properties of the graph are the means over the counted events. The report
holds these means when no job arrives, departs or leaves once the first event is counted. -/
theorem run_quiet_reports_means {earlier : List Choice} {output : SimOutput}
    (started : Runs.run (Monitor.step graph config)
      (Processor.start config, Monitor.start initial) earlier = some state)
    (uncounted : state.2.counted = [])
    (quiet : Runs.Along (Monitor.step graph config) (fun _ choice => Quiet config choice.entry)
      state choices)
    (ran : Runs.run (Monitor.step graph config) state choices = some final)
    (reported : report graph final = some output) (some_counted : final.2.counted ≠ []) :
    (final.2.counted.length < 2 ^ 32 → final.2.system = averages graph final.2.counted) ∧
      output = accumResults (averages graph final.2.counted) := by
  have whole : Runs.run (Monitor.step graph config)
      (Processor.start config, Monitor.start initial) (earlier ++ choices) = some final := by
    rw [Runs.run_append, started]
    exact ran
  have still : Still (atEnd state) final :=
    Runs.run_invariant_along (Still (atEnd state))
      (fun _ _ _ still quiet stepped => still.step quiet stepped)
      ⟨rfl, fun one member => by simp [uncounted] at member⟩ quiet ran
  refine ⟨run_rolling whole some_counted, ?_⟩
  rw [report_cases reported, still.averages_eq some_counted, still.1]

end Reported

def observed : Graph := Graph.point

def observedConfig : Config where
  stopTime := 10
  systemStatsSteps := 2
  systemStatsInterval := 4

def observedStart : Processor × Monitor :=
  (Processor.start observedConfig, Monitor.start ⟨some 0, some 0, some 0⟩)

def observe (uid : Nat) (time : ℚ) : Choice :=
  ⟨EventGenerator.generateAdminEventType uid time systemStatisticsEvent, 0, fun _ => 0, 0⟩

def arrive (uid : Nat) (time : ℚ) (next : ℚ≥0) : Choice :=
  ⟨EventGenerator.generateArrival uid 0 time 0, 20, fun _ => next, 0⟩

def firstTurns (next : ℚ≥0) : List Choice :=
  [⟨EventGenerator.generateAdminEventType 0 0 generateArrivalEvent, 0, fun _ => 1, 0⟩,
    observe 1 0, arrive 2 1 next]

theorem run_quiet_reports_means_single :
    ∃ state final output,
      Runs.run (Monitor.step observed observedConfig) observedStart (firstTurns 15) = some state ∧
      Runs.run (Monitor.step observed observedConfig) state
        [observe 3 4, observe 6 8, arrive 4 16 0] = some final ∧
      report observed final = some output ∧
      ((final.2.counted.length < 2 ^ 32 → final.2.system = averages observed final.2.counted) ∧
        output = accumResults (averages observed final.2.counted)) := by
  have checked : ∃ state ∈ Runs.run (Monitor.step observed observedConfig) observedStart
      (firstTurns 15), ∃ final ∈ Runs.run (Monitor.step observed observedConfig) state
        [observe 3 4, observe 6 8, arrive 4 16 0], ∃ output ∈ report observed final,
      state.2.counted.length = 0 ∧ final.2.counted.length ≠ 0 := by
    decide +kernel
  obtain ⟨state, started, final, ran, output, reported, none_counted, some_counted⟩ := checked
  have quiet : Runs.Along (Monitor.step observed observedConfig)
      (fun _ choice => Quiet observedConfig choice.entry) state
      [observe 3 4, observe 6 8, arrive 4 16 0] :=
    Runs.along_of_forall (fun _ => by decide +kernel) state
  exact ⟨state, final, output, started, ran, reported,
    run_quiet_reports_means started (List.length_eq_zero_iff.mp none_counted) quiet ran reported
      fun none => some_counted (by simp [none])⟩

def lateArrival : List Choice :=
  firstTurns 1 ++ [arrive 4 2 7, observe 3 4, observe 8 8, arrive 6 9 7, arrive 9 16 0]

/-- The last arrival raises the average delay from 19/2, which was the mean, to 17. -/
theorem lateArrival_reported :
    ∃ final output, Runs.run (Monitor.step observed observedConfig) observedStart lateArrival =
        some final ∧
      report observed final = some output ∧ final.2.counted ≠ [] ∧
      (averages observed final.2.counted).delay = some (19 / 2) ∧
      output.systemAverageDelay = some 17 := by
  have checked : ∃ final ∈ Runs.run (Monitor.step observed observedConfig) observedStart
      lateArrival, ∃ output ∈ report observed final, final.2.counted.length ≠ 0 ∧
        (averages observed final.2.counted).delay = some (19 / 2) ∧
        output.systemAverageDelay = some 17 := by
    decide +kernel
  obtain ⟨final, ran, output, reported, some_counted, delays⟩ := checked
  exact ⟨final, output, ran, reported, fun none => some_counted (by simp [none]), delays⟩

theorem means_overwritten :
    ¬∀ (graph : Graph) (config : Config) (initial : SystemStatistics) (choices : List Choice)
      (final : Processor × Monitor) (output : SimOutput),
      Runs.run (Monitor.step graph config) (Processor.start config, Monitor.start initial) choices =
        some final →
      report graph final = some output → final.2.counted ≠ [] →
        output = accumResults (averages graph final.2.counted) := by
  intro always
  obtain ⟨final, output, ran, reported, some_counted, mean, delay⟩ := lateArrival_reported
  have same := always observed observedConfig ⟨some 0, some 0, some 0⟩ lateArrival final output ran
    reported some_counted
  have delays : output.systemAverageDelay = (averages observed final.2.counted).delay := by
    rw [same]
    rfl
  rw [mean, delay] at delays
  exact absurd delays (by norm_num)

end RlAqs
