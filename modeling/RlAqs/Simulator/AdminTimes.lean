import RlAqs.Simulator.ArrivalStreams
import Mathlib.Tactic.Ring

/-!
The times of the periodic admin events. The `k`-th graph is written and the `k`-th column of
arrival rates is taken over at `k` times the interval, and a run to the stop time misses none.
-/

namespace RlAqs

open Handlers EventGenerator

namespace Processor

variable {graph : Graph} {config : Config} {processor next : Processor} {choice : Choice}

def ticks (type : Int) (processor : Processor) : Nat :=
  if type = logGraphEvent then processor.counter
  else if type = serialiseArrivalEvent then processor.currentTimeStep
  else 0

inductive KindTurn (graph : Graph) (config : Config) (processor : Processor) (choice : Choice)
    (type : Int) (next : Processor) : Prop
  | kept (pending : ∀ only, only.length ≤ 1 → ofType type processor.pending = only →
        ofType type next.pending = only)
      (ticks : next.ticks type = processor.ticks type)
  | own (kind : choice.entry.type = type) (origin : choice.entry.origin = adminEvent)
      (handled : next = (processor.dequeue choice).admin graph config choice.entry choice.gap)

theorem pushed_low (dequeued : Dequeued processor choice)
    (inHand : processor.take choice.entry = choice.entry)
    (turn : Turn graph config processor choice next) (going : choice.entry.origin ≠ adminEvent) :
    (next.pending.Perm processor.pending ∨ ∃ pushed,
      next.pending = processor.pending.erase choice.entry ++ pushed ∧
        ∀ entry ∈ pushed, entry.type < logGraphEvent) ∧
      next.counter = processor.counter ∧ next.currentTimeStep = processor.currentTimeStep := by
  have back : (choice.entry :: processor.pending.erase choice.entry).Perm processor.pending :=
    (List.perm_cons_erase dequeued.member).symm
  cases turn with
  | admin origin => exact absurd (inHand ▸ origin) going
  | stop origin late =>
      rw [inHand]
      exact ⟨.inl back, rfl, rfl⟩
  | «break» origin inTime type empty =>
      rw [inHand]
      exact ⟨.inl back, rfl, rfl⟩
  | arrival origin inTime type =>
      refine ⟨.inr ⟨_, rfl, fun entry member => ?_⟩, rfl, rfl⟩
      rcases List.mem_append.mp member with generated | scheduled
      · rw [(mem_generated processor _ generated).2]
        exact (by decide : lastArrivalEvent < logGraphEvent)
      · rw [List.mem_singleton.mp scheduled, arrived_type]
        decide
  | departure origin inTime type =>
      refine ⟨.inr ⟨_, rfl, fun entry member => ?_⟩, rfl, rfl⟩
      rw [List.mem_singleton.mp member]
      rcases departureHandler_type graph
        (processor.servers (processor.take choice.entry).destination) processor.uid
        (processor.take choice.entry) choice.selected with kind | kind
      · exact kind ▸ (by decide : arrivalEvent < logGraphEvent)
      · exact kind ▸ (by decide : ackEvent < logGraphEvent)
  | ack origin inTime type pushed answered =>
      refine ⟨.inr ⟨pushed, rfl, fun entry member => ?_⟩, rfl, rfl⟩
      have types := (ackHandler_pushed answered member).2
      simp only [List.mem_cons, List.not_mem_nil, or_false] at types
      rcases types with kind | kind | kind <;> rw [kind] <;> decide
  | other origin inTime type =>
      exact ⟨.inr ⟨[], rfl, by simp⟩, rfl, rfl⟩

theorem admin_other {type : Int} (kind : logGraphEvent ≤ type) (other : choice.entry.type ≠ type) :
    let after := (processor.dequeue choice).admin graph config choice.entry choice.gap
    (∃ pushed, after.pending = processor.pending.erase choice.entry ++ pushed ∧
      ∀ entry ∈ pushed, entry.type ≠ type) ∧ after.ticks type = processor.ticks type := by
  intro after
  have turn : AdminTurn graph config (processor.dequeue choice) choice.entry choice.gap after :=
    admin_cases ..
  clear_value after
  have single (uid : Nat) (time : ℚ) :
      ∀ entry ∈ [generateAdminEventType uid time choice.entry.type], entry.type ≠ type := by
    intro entry member
    rw [List.mem_singleton.mp member]
    exact other
  cases turn with
  | serialise same bound =>
      rw [same] at other single
      refine ⟨⟨_, rfl, single _ _⟩, ?_⟩
      simp [ticks, Ne.symm other, push, dequeue]
  | generate same =>
      refine ⟨⟨_, rfl, fun entry member => ?_⟩, by simp [ticks, push, dequeue]⟩
      obtain ⟨vertex, _, rfl⟩ := List.mem_map.mp member
      intro low
      rw [← low] at kind
      exact absurd kind (by simp [generateArrival, Entry.new])
  | log same =>
      rw [same] at other
      exact ⟨⟨[], (List.append_nil _).symm, by simp⟩, by simp [ticks, Ne.symm other, dequeue]⟩
  | logAgain same =>
      rw [same] at other single
      refine ⟨⟨_, rfl, single _ _⟩, ?_⟩
      simp [ticks, Ne.symm other, push, dequeue]
  | observe same =>
      rw [same] at single
      exact ⟨⟨_, rfl, single _ _⟩, by simp [ticks, push, dequeue]⟩
  | idle => exact ⟨⟨[], (List.append_nil _).symm, by simp⟩, by simp [ticks, dequeue]⟩

theorem admin_turn (inHand : processor.take choice.entry = choice.entry)
    (turn : Turn graph config processor choice next) (admin : choice.entry.origin = adminEvent) :
    next = (processor.dequeue choice).admin graph config choice.entry choice.gap := by
  cases turn with
  | admin origin => rw [inHand]
  | stop origin late => exact absurd ((take_origin _ _).trans admin) origin
  | «break» origin inTime type empty => exact absurd ((take_origin _ _).trans admin) origin
  | arrival origin inTime type => exact absurd ((take_origin _ _).trans admin) origin
  | departure origin inTime type => exact absurd ((take_origin _ _).trans admin) origin
  | ack origin inTime type pushed answered => exact absurd ((take_origin _ _).trans admin) origin
  | other origin inTime type => exact absurd ((take_origin _ _).trans admin) origin

theorem kind_cases (begun : 0 ≤ config.stopTime) (consistent : Consistent config processor)
    {type : Int} (kind : logGraphEvent ≤ type)
    (sourced : ∀ entry ∈ ofType type processor.pending, entry.origin = adminEvent)
    (stepped : Processor.step graph config processor choice = some next) :
    KindTurn graph config processor choice type next := by
  obtain ⟨dequeued, turn⟩ := step_cases stepped
  have inHand : processor.take choice.entry = choice.entry :=
    take_eq ((consistent.timed begun).future choice.entry dequeued.member)
  have pushes {after : Processor} {pushed : List Entry} (other : choice.entry.type ≠ type)
      (pending : after.pending = processor.pending.erase choice.entry ++ pushed)
      (types : ∀ entry ∈ pushed, entry.type ≠ type) :
      ofType type after.pending = ofType type processor.pending := by
    rw [pending, ofType_append, ofType_erase_of_ne other, ofType_none types, List.append_nil]
  by_cases admin : choice.entry.origin = adminEvent
  · have handled := admin_turn inHand turn admin
    by_cases own : choice.entry.type = type
    · exact .own own admin handled
    · obtain ⟨⟨pushed, pending, types⟩, ticks⟩ :=
        @admin_other graph config processor choice type kind own
      rw [← handled] at pending ticks
      exact .kept (fun only _ listed => (pushes own pending types).trans listed) ticks
  · have other : choice.entry.type ≠ type := fun own =>
      admin (sourced choice.entry (mem_ofType.mpr ⟨dequeued.member, own⟩))
    obtain ⟨moved, counter, currentTimeStep⟩ := pushed_low dequeued inHand turn admin
    refine .kept (fun only few listed => ?_) (by simp [ticks, counter, currentTimeStep])
    rcases moved with perm | ⟨pushed, pending, types⟩
    · exact ofType_perm perm few listed
    · refine (pushes other pending fun entry member => ?_).trans listed
      exact ((types entry member).trans_le kind).ne

/-! The two handlers that count. -/

/-- The next graph is due once, at its multiple of the interval, until the stop time. -/
structure Logged (config : Config) (processor : Processor) : Prop where
  due : if processor.counter * logGraphInterval config ≤ config.stopTime then
      ∃ uid, ofType logGraphEvent processor.pending = [generateAdminEventType uid
        (processor.counter * logGraphInterval config) logGraphEvent]
    else ofType logGraphEvent processor.pending = []
  inTime : processor.counter = 0 ∨
    (processor.counter - 1) * logGraphInterval config ≤ config.stopTime

inductive Serialised (config : Config) (processor : Processor) : Prop
  | due (uid : Nat) (bound : processor.currentTimeStep ≤ config.mfrwT)
      (only : ofType serialiseArrivalEvent processor.pending = [generateAdminEventType uid
        (serialiseInterval config * processor.currentTimeStep) serialiseArrivalEvent])
  | complete (all : processor.currentTimeStep = config.mfrwT)
      (none : ofType serialiseArrivalEvent processor.pending = [])

theorem sourced_single {type : Int} {entries : List Entry} {uid : Nat} {time : ℚ} {kind : Int}
    (only : ofType type entries = [generateAdminEventType uid time kind]) :
    ∀ entry ∈ ofType type entries, entry.origin = adminEvent := by
  intro entry member
  rw [only, List.mem_singleton] at member
  rw [member]
  rfl

theorem admin_serialise (type : choice.entry.type = serialiseArrivalEvent) :
    (processor.dequeue choice).admin graph config choice.entry choice.gap =
      if processor.currentTimeStep < config.mfrwT then
        { processor.dequeue choice with
          currentTimeStep := processor.currentTimeStep + 1 }.push
          [generateAdminEventType processor.uid
            (serialiseInterval config * (processor.currentTimeStep + 1 : ℕ)) serialiseArrivalEvent]
      else processor.dequeue choice := by
  split
  · rename_i bound
    simp [admin, serialiseArrivalsHandler, generateArrivalsAdminHandler, logGraphHandler,
      rollingSystemStatsAdminHandler, type, dequeue, bound]
  · rename_i bound
    simp [admin, serialiseArrivalsHandler, generateArrivalsAdminHandler, logGraphHandler,
      rollingSystemStatsAdminHandler, type, dequeue, bound]

theorem Logged.step (logged : Logged config processor) (begun : 0 ≤ config.stopTime)
    (consistent : Consistent config processor)
    (stepped : Processor.step graph config processor choice = some next) :
    Logged config next := by
  have member := (step_cases stepped).1.member
  have due := logged.due
  have sourced : ∀ entry ∈ ofType logGraphEvent processor.pending, entry.origin = adminEvent := by
    split at due
    · obtain ⟨uid, only⟩ := due
      exact sourced_single only
    · simp [due]
  cases kind_cases begun consistent le_rfl sourced stepped with
  | kept pending ticks =>
      have counter : next.counter = processor.counter := by simpa [ticks, Processor.ticks] using ticks
      constructor
      · rw [counter]
        split at due
        · rename_i early
          obtain ⟨uid, only⟩ := due
          rw [if_pos early]
          exact ⟨uid, pending _ le_rfl only⟩
        · rename_i late
          rw [if_neg late]
          exact pending [] (Nat.zero_le _) due
      · rw [counter]
        exact logged.inTime
  | own kind origin handled =>
      have listed := mem_ofType.mpr ⟨member, kind⟩
      split at due
      · rename_i early
        obtain ⟨uid, only⟩ := due
        rw [only, List.mem_singleton] at listed
        rw [admin_log kind, dequeue_counter] at handled
        have rest : ofType logGraphEvent (processor.pending.erase choice.entry) = [] := by
          rw [ofType_erase, only, listed, List.erase_cons_head]
        have counter : next.counter = processor.counter + 1 := by rw [handled]; rfl
        constructor
        · rw [counter]
          split
          · rename_i again
            refine ⟨processor.uid, ?_⟩
            rw [handled, if_pos again, push, ofType_append]
            simp only [dequeue]
            rw [rest]
            rfl
          · rename_i last
            rw [handled, if_neg last, push, ofType_append]
            simp only [dequeue]
            rw [rest]
            rfl
        · rw [counter]
          refine .inr ?_
          push_cast
          rw [add_sub_cancel_right]
          exact early
      · rw [due] at listed
        cases listed

theorem Serialised.step (serialised : Serialised config processor) (begun : 0 ≤ config.stopTime)
    (consistent : Consistent config processor)
    (stepped : Processor.step graph config processor choice = some next) :
    Serialised config next := by
  have member := (step_cases stepped).1.member
  have kindLe : logGraphEvent ≤ serialiseArrivalEvent := by decide
  cases serialised with
  | due uid bound only =>
      cases kind_cases begun consistent kindLe (sourced_single only) stepped with
      | kept pending ticks =>
          have same : next.currentTimeStep = processor.currentTimeStep := by
            simpa [Processor.ticks] using ticks
          refine .due uid (same ▸ bound) ?_
          rw [same]
          exact pending _ le_rfl only
      | own kind origin handled =>
          have listed := mem_ofType.mpr ⟨member, kind⟩
          rw [only, List.mem_singleton] at listed
          have rest : ofType serialiseArrivalEvent (processor.pending.erase choice.entry) = [] := by
            rw [ofType_erase, only, listed, List.erase_cons_head]
          rw [admin_serialise kind] at handled
          split at handled
          · rename_i more
            subst handled
            refine .due processor.uid more ?_
            rw [push, ofType_append]
            simp only [dequeue]
            rw [rest]
            rfl
          · rename_i last
            subst handled
            exact .complete (le_antisymm bound (not_lt.mp last)) rest
  | complete all none =>
      cases kind_cases begun consistent kindLe (by simp [none]) stepped with
      | kept pending ticks =>
          have same : next.currentTimeStep = processor.currentTimeStep := by
            simpa [Processor.ticks] using ticks
          exact .complete (same.trans all) (pending [] (Nat.zero_le _) none)
      | own kind origin handled =>
          have listed := mem_ofType.mpr ⟨member, kind⟩
          rw [none] at listed
          cases listed

theorem stopped_late (dequeued : Dequeued processor choice)
    (turn : Turn graph config processor choice next)
    (inHand : processor.take choice.entry = choice.entry) (stopped : next.stopped = true) :
    ∀ entry ∈ next.pending, config.stopTime < entry.arrival := by
  have running := dequeued.running
  cases turn with
  | stop origin late =>
      rw [inHand] at late ⊢
      intro entry member
      rcases List.mem_cons.mp member with rfl | old
      · exact late
      · exact late.trans_le (dequeued.earliest entry (erase_subset old))
  | admin origin =>
      have same : ((processor.dequeue choice).admin graph config
          (processor.take choice.entry) choice.gap).stopped = processor.stopped := rfl
      rw [same, running] at stopped
      cases stopped
  | «break» => exact absurd (running.symm.trans stopped) (by decide)
  | arrival => exact absurd (running.symm.trans stopped) (by decide)
  | departure => exact absurd (running.symm.trans stopped) (by decide)
  | ack => exact absurd (running.symm.trans stopped) (by decide)
  | other => exact absurd (running.symm.trans stopped) (by decide)

theorem start_logged (begun : 0 ≤ config.stopTime) (logs : config.logGraphs = true) :
    Logged config (start config) := by
  constructor
  · have now : (start config).counter * logGraphInterval config ≤ config.stopTime := by
      simpa [start] using begun
    rw [if_pos now]
    refine ⟨(if config.mfrw then 1 else 0) + 1, ?_⟩
    unfold start initialTypes ofType
    cases config.mfrw <;> by_cases statistics : config.systemStatsSteps > 0 <;>
      simp [statistics, logs, generateAdminEventType, Entry.new]
  · exact .inl rfl

theorem start_serialised (serialises : config.mfrw = true) : Serialised config (start config) := by
  refine .due 0 (Nat.zero_le _) ?_
  unfold start initialTypes ofType
  cases config.logGraphs <;> by_cases statistics : config.systemStatsSteps > 0 <;>
    simp [statistics, serialises, generateAdminEventType, Entry.new]

theorem run_late (begun : 0 ≤ config.stopTime) {choices : List Choice} {final : Processor}
    (ran : Runs.run (Processor.step graph config) (start config) choices = some final) :
    final.stopped = true → ∀ entry ∈ final.pending, config.stopTime < entry.arrival := by
  refine run_keeps (motive := fun state => state.stopped = true →
    ∀ entry ∈ state.pending, config.stopTime < entry.arrival) ?_ ?_ ran
  · exact fun stopped => absurd stopped (by simp [start])
  · intro processor choice next consistent _ stepped
    obtain ⟨dequeued, turn⟩ := step_cases stepped
    exact stopped_late dequeued turn
      (take_eq ((consistent.timed begun).future _ dequeued.member))

theorem run_logged (begun : 0 ≤ config.stopTime) (logs : config.logGraphs = true)
    {choices : List Choice} {final : Processor}
    (ran : Runs.run (Processor.step graph config) (start config) choices = some final) :
    Logged config final :=
  run_keeps (start_logged begun logs)
    (fun _ _ _ consistent logged stepped => logged.step begun consistent stepped) ran

theorem run_serialised (begun : 0 ≤ config.stopTime) (serialises : config.mfrw = true)
    {choices : List Choice} {final : Processor}
    (ran : Runs.run (Processor.step graph config) (start config) choices = some final) :
    Serialised config final :=
  run_keeps (start_serialised serialises)
    (fun _ _ _ consistent serialised stepped => serialised.step begun consistent stepped) ran

def graphSteps (config : Config) : Nat :=
  if config.graphRate > 1 then config.graphRate.toNat else 1

theorem graphSteps_interval (logs : config.logGraphs = true) :
    0 < graphSteps config ∧
      (graphSteps config : ℚ) * logGraphInterval config = config.stopTime := by
  unfold graphSteps logGraphInterval
  by_cases several : config.graphRate > 1
  · have cast : ((config.graphRate.toNat : ℕ) : ℚ) = (config.graphRate : ℚ) := by
      exact_mod_cast Int.toNat_of_nonneg (by omega)
    have nonzero : (config.graphRate : ℚ) ≠ 0 := by exact_mod_cast (by omega : config.graphRate ≠ 0)
    simp only [logs, several, and_self, if_true]
    refine ⟨by omega, ?_⟩
    rw [cast]
    exact mul_div_cancel₀ _ nonzero
  · simp [several]

theorem serialise_inTime (begun : 0 ≤ config.stopTime) {step : Nat} (bound : step ≤ config.mfrwT) :
    serialiseInterval config * step ≤ config.stopTime := by
  unfold serialiseInterval
  rcases Nat.eq_zero_or_pos config.mfrwT with none | some
  · obtain rfl : step = 0 := by omega
    simpa using begun
  · have steps : (0 : ℚ) < config.mfrwT := by exact_mod_cast some
    have less : (step : ℚ) ≤ config.mfrwT := by exact_mod_cast bound
    rw [div_mul_eq_mul_div, div_le_iff₀ steps]
    exact mul_le_mul_of_nonneg_left less begun

theorem handled_single (begun : 0 ≤ config.stopTime) (consistent : Consistent config processor)
    {type : Int} {uid : Nat} {time : ℚ}
    (only : ofType type processor.pending = [generateAdminEventType uid time type])
    (stepped : Processor.step graph config processor choice = some next)
    (kind : choice.entry.type = type) :
    choice.entry.arrival = time ∧
      next = (processor.dequeue choice).admin graph config choice.entry choice.gap := by
  obtain ⟨dequeued, turn⟩ := step_cases stepped
  have listed := mem_ofType.mpr ⟨dequeued.member, kind⟩
  have inHand := take_eq ((consistent.timed begun).future _ dequeued.member)
  rw [only, List.mem_singleton] at listed
  exact ⟨by rw [listed]; rfl, admin_turn inHand turn (by rw [listed]; rfl)⟩

theorem handled_none {type : Int} (none : ofType type processor.pending = [])
    (stepped : Processor.step graph config processor choice = some next) :
    choice.entry.type ≠ type := by
  intro kind
  have listed := mem_ofType.mpr ⟨(step_cases stepped).1.member, kind⟩
  rw [none] at listed
  cases listed

theorem late_single (late : ∀ entry ∈ processor.pending, config.stopTime < entry.arrival)
    {type : Int} {uid : Nat} {time : ℚ}
    (only : ofType type processor.pending = [generateAdminEventType uid time type]) :
    config.stopTime < time := by
  have member : generateAdminEventType uid time type ∈ ofType type processor.pending := by
    rw [only]
    exact List.mem_singleton_self _
  exact late _ (mem_ofType.mp member).1

theorem Logged.fires (begun : 0 ≤ config.stopTime) (logged : Logged config processor)
    (consistent : Consistent config processor)
    (stepped : Processor.step graph config processor choice = some next)
    (kind : choice.entry.type = logGraphEvent) :
    choice.entry.arrival = processor.counter * logGraphInterval config ∧
      next.counter = processor.counter + 1 := by
  have due := logged.due
  split at due
  · obtain ⟨uid, only⟩ := due
    obtain ⟨time, after⟩ := handled_single begun consistent only stepped kind
    rw [admin_log kind] at after
    exact ⟨time, by rw [after]; rfl⟩
  · exact absurd kind (handled_none due stepped)

/-- Once only later events are pending, the last graph was the one at the stop time: the next
one lies past it, and the one before did not. -/
theorem Logged.finished (begun : 0 < config.stopTime) (logs : config.logGraphs = true)
    (logged : Logged config processor)
    (late : ∀ entry ∈ processor.pending, config.stopTime < entry.arrival) :
    processor.counter = graphSteps config + 1 := by
  have due := logged.due
  obtain ⟨some_steps, all⟩ := graphSteps_interval logs
  have steps : (0 : ℚ) < graphSteps config := by exact_mod_cast some_steps
  have interval : 0 < logGraphInterval config := by
    by_contra none
    have less := mul_nonpos_of_nonneg_of_nonpos steps.le (not_lt.mp none)
    linarith
  have past : config.stopTime < processor.counter * logGraphInterval config := by
    by_contra early
    rw [if_pos (not_lt.mp early)] at due
    obtain ⟨uid, only⟩ := due
    exact early (late_single late only)
  have more : graphSteps config < processor.counter := by
    rw [← all] at past
    exact_mod_cast (mul_lt_mul_iff_of_pos_right interval).mp past
  have fewer : (processor.counter : ℚ) - 1 ≤ graphSteps config := by
    rcases logged.inTime with zero | inTime
    · omega
    · rw [← all] at inTime
      exact (mul_le_mul_iff_of_pos_right interval).mp inTime
  have fewer : processor.counter ≤ graphSteps config + 1 := by
    have cast : (processor.counter : ℚ) ≤ ((graphSteps config + 1 : ℕ) : ℚ) := by
      push_cast
      linarith
    exact_mod_cast cast
  omega

theorem Serialised.fires (begun : 0 ≤ config.stopTime) (serialised : Serialised config processor)
    (consistent : Consistent config processor)
    (stepped : Processor.step graph config processor choice = some next)
    (kind : choice.entry.type = serialiseArrivalEvent) :
    choice.entry.arrival = serialiseInterval config * processor.currentTimeStep ∧
      next.currentTimeStep = min (processor.currentTimeStep + 1) config.mfrwT := by
  cases serialised with
  | due uid bound only =>
      obtain ⟨time, after⟩ := handled_single begun consistent only stepped kind
      refine ⟨time, ?_⟩
      rw [admin_serialise kind] at after
      rw [after]
      split
      · rename_i more
        exact (min_eq_left more).symm
      · rename_i last
        have all : processor.currentTimeStep = config.mfrwT := le_antisymm bound (not_lt.mp last)
        change processor.currentTimeStep = _
        rw [min_eq_right (by omega), all]
  | complete all none => exact absurd kind (handled_none none stepped)

theorem Serialised.finished (begun : 0 ≤ config.stopTime) (serialised : Serialised config processor)
    (late : ∀ entry ∈ processor.pending, config.stopTime < entry.arrival) :
    processor.currentTimeStep = config.mfrwT := by
  cases serialised with
  | due uid bound only =>
      exact absurd (late_single late only) (not_lt.mpr (serialise_inTime begun bound))
  | complete all none => exact all

/-- In every run a graph is written, and a column of arrival rates taken over, only at its
multiple of the interval; when the loop stops, all of those up to the stop time are done: the
last one at the stop time itself. -/
theorem run_admin_times (begun : 0 < config.stopTime) {choices : List Choice} {final : Processor}
    (ran : Runs.run (Processor.step graph config) (start config) choices = some final) :
    (config.logGraphs = true →
      (∀ choice next, Processor.step graph config final choice = some next →
        choice.entry.type = logGraphEvent →
        choice.entry.arrival = final.counter * logGraphInterval config ∧
          next.counter = final.counter + 1) ∧
      (final.stopped = true → final.counter = graphSteps config + 1)) ∧
    (config.mfrw = true →
      (∀ choice next, Processor.step graph config final choice = some next →
        choice.entry.type = serialiseArrivalEvent →
        choice.entry.arrival = serialiseInterval config * final.currentTimeStep ∧
          next.currentTimeStep = min (final.currentTimeStep + 1) config.mfrwT) ∧
      (final.stopped = true → final.currentTimeStep = config.mfrwT)) := by
  have consistent := run_consistent ran
  have late := run_late begun.le ran
  refine ⟨fun logs => ?_, fun serialises => ?_⟩
  · have logged := run_logged begun.le logs ran
    exact ⟨fun _ _ stepped kind => logged.fires begun.le consistent stepped kind,
      fun stopped => logged.finished begun logs (late stopped)⟩
  · have serialised := run_serialised begun.le serialises ran
    exact ⟨fun _ _ stepped kind => serialised.fires begun.le consistent stepped kind,
      fun stopped => serialised.finished begun.le (late stopped)⟩

def logged : Config :=
  { stopTime := 2, logGraphs := true, graphRate := 2, mfrw := true, mfrwT := 2 }

def threeGraphs : List Choice :=
  [generateAdminEventType 0 0 serialiseArrivalEvent, generateAdminEventType 1 0 generateArrivalEvent,
    generateAdminEventType 2 0 logGraphEvent, generateAdminEventType 3 1 serialiseArrivalEvent,
    generateAdminEventType 5 1 logGraphEvent, generateAdminEventType 6 2 serialiseArrivalEvent,
    generateAdminEventType 7 2 logGraphEvent, generateArrival 4 0 0 (9 : ℕ)].map
      fun entry => ⟨entry, 0, fun _ => (9 : ℕ), 0⟩

theorem run_admin_times_threeGraphs :
    ∃ final, Runs.run (Processor.step lone logged) (start logged) threeGraphs = some final ∧
      final.counter = 3 ∧ final.currentTimeStep = 2 := by
  have checked : ((Runs.run (Processor.step lone logged) (start logged) threeGraphs).map
      Processor.stopped) = some true := by
    decide +kernel
  obtain ⟨final, ran, stopped⟩ := Option.map_eq_some_iff.mp checked
  obtain ⟨graphs, columns⟩ := run_admin_times (by decide) ran
  exact ⟨final, ran, (graphs rfl).2 stopped, (columns rfl).2 stopped⟩

end Processor

end RlAqs
