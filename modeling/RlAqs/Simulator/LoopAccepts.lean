import RlAqs.Simulator.LoopCore
import RlAqs.Simulator.ServersMatch
import Mathlib.Data.List.MinMax

/-!
The queue refuses nothing: every entry a handler pushes is at or after the clock, so a turn of
the loop is a turn of the processor, in which no push is refused.
-/

namespace RlAqs

namespace EventLoop

open Handlers Processor

variable {graph : Graph} {config : Config} {loop next : EventLoop} {choice : Choice}

def Accepts (loop : EventLoop) (processor : Processor) (result : Option EventLoop) : Prop :=
  ∃ log, result = some { loop with processor := processor, pushes := log ++ loop.pushes } ∧
    ∀ push ∈ log, push.1 ≤ push.2.arrival

theorem Accepts.bind {processor final : Processor} {result : Option EventLoop}
    {handler : EventLoop → Option EventLoop} (first : Accepts loop processor result)
    (later : ∀ pushes, Accepts { loop with processor := processor, pushes := pushes } final
      (handler { loop with processor := processor, pushes := pushes })) :
    Accepts loop final (result.bind handler) := by
  obtain ⟨firstLog, rfl, firstAhead⟩ := first
  obtain ⟨laterLog, handled, laterAhead⟩ := later (firstLog ++ loop.pushes)
  refine ⟨laterLog ++ firstLog, ?_, ?_⟩
  · rw [Option.bind_some, handled, List.append_assoc]
  · intro push member
    rcases List.mem_append.mp member with new | old
    · exact laterAhead push new
    · exact firstAhead push old

/-- The queue has handed out nothing later than the clock. -/
def Behind (loop : EventLoop) : Prop :=
  ∀ time ∈ loop.handedOut, time ≤ loop.processor.oldTime

theorem Behind.accepts (behind : Behind loop) {entry : Entry}
    (future : loop.processor.oldTime ≤ entry.arrival) : loop.refuses entry = false := by
  unfold refuses
  split
  · rfl
  · rename_i time last
    exact decide_eq_false (not_lt.mpr ((behind time last).trans future))

theorem push_cons (processor : Processor) (entry : Entry) (rest : List Entry) :
    (processor.push [entry]).push rest = processor.push (entry :: rest) := by
  simp [Processor.push, Nat.add_comm, Nat.add_left_comm]

theorem Behind.push (behind : Behind loop) {entries : List Entry}
    (future : ∀ entry ∈ entries, loop.processor.oldTime ≤ entry.arrival) :
    Accepts loop (loop.processor.push entries) (loop.push entries) := by
  induction entries generalizing loop with
  | nil => exact ⟨[], by simp [EventLoop.push], by simp⟩
  | cons entry rest ih =>
      have first := future entry List.mem_cons_self
      simp only [EventLoop.push, behind.accepts first, Bool.false_eq_true, if_false]
      obtain ⟨log, pushed, ahead⟩ := @ih
        { loop with
          processor := loop.processor.push [entry]
          pushes := (loop.processor.oldTime, entry) :: loop.pushes }
        behind (fun later member => future later (List.mem_cons_of_mem _ member))
      refine ⟨log ++ [(loop.processor.oldTime, entry)], ?_, ?_⟩
      · rw [pushed, push_cons]
        simp
      · intro push member
        rcases List.mem_append.mp member with later | now
        · exact ahead push later
        · rw [List.mem_singleton.mp now]
          exact first

theorem Behind.pushFrom (behind : Behind loop) {processor : Processor}
    (clock : processor.oldTime = loop.processor.oldTime) {entries : List Entry}
    (future : ∀ entry ∈ entries, loop.processor.oldTime ≤ entry.arrival) :
    Accepts loop (processor.push entries) ({ loop with processor := processor }.push entries) := by
  have behind' : Behind { loop with processor := processor } := by
    intro time last
    rw [clock]
    exact behind time last
  exact behind'.push fun entry member => clock.trans_le (future entry member)

theorem Behind.admin (behind : Behind loop) {entry : Entry} {gap : Int → ℚ≥0}
    (future : ∀ pushed ∈ (loop.processor.admin graph config entry gap).pending,
      loop.processor.oldTime ≤ pushed.arrival) :
    Accepts loop (loop.processor.admin graph config entry gap)
      (loop.admin graph config entry gap) := by
  simp only [Processor.admin, Processor.push, List.mem_append] at future
  unfold EventLoop.admin Processor.admin
  dsimp only
  refine Accepts.bind (behind.pushFrom ?_ fun pushed member => ?_) fun pushes => ?_
  · rfl
  · exact future pushed (.inl (.inl (.inl (.inr member))))
  refine Accepts.bind (Behind.pushFrom ?_ ?_ fun pushed member => ?_) fun pushes => ?_
  · exact behind
  · rfl
  · exact future pushed (.inl (.inl (.inr member)))
  refine Accepts.bind (Behind.pushFrom ?_ ?_ fun pushed member => ?_) fun pushes => ?_
  · exact behind
  · rfl
  · exact future pushed (.inl (.inr member))
  refine Behind.pushFrom ?_ ?_ fun pushed member => ?_
  · exact behind
  · rfl
  · exact future pushed (.inr member)

theorem admin_stopped (graph : Graph) (config : Config) (processor : Processor) (entry : Entry)
    (gap : Int → ℚ≥0) :
    (processor.admin graph config entry gap).stopped = processor.stopped := by
  generalize ended : processor.admin graph config entry gap = final
  have turn := admin_cases graph config processor entry gap
  rw [ended] at turn
  cases turn with
  | serialise => rfl
  | generate => rfl
  | log => rfl
  | logAgain => rfl
  | observe => rfl
  | idle => rfl

structure Turned (loop : EventLoop) (processor : Processor) (next : EventLoop) : Prop where
  turn : next.processor = processor
  handedOut : next.handedOut = some processor.oldTime
  returned : next.returned = if processor.stopped then some true else none
  times : next.times = processor.oldTime :: loop.times
  corrected : next.corrected = loop.corrected
  pushes : ∀ push ∈ next.pushes, push ∈ loop.pushes ∨ push.1 ≤ push.2.arrival

def handOut (loop : EventLoop) (choice : Choice) : EventLoop :=
  { loop with
    processor := loop.processor.dequeue choice
    handedOut := some choice.entry.arrival
    times := (loop.processor.take choice.entry).arrival :: loop.times
    corrected := loop.corrected || choice.entry.arrival < loop.processor.oldTime }

theorem behind_handOut (loop : EventLoop) (choice : Choice) : Behind (loop.handOut choice) := by
  rintro _ ⟨⟩
  exact arrival_le_take loop.processor choice.entry

theorem turned_handOut {processor : Processor} {returned : Option Bool}
    (log : List (ℚ × Entry)) (future : loop.processor.oldTime ≤ choice.entry.arrival)
    (clock : processor.oldTime = (loop.processor.take choice.entry).arrival)
    (ended : returned = if processor.stopped then some true else none)
    (ahead : ∀ push ∈ log, push.1 ≤ push.2.arrival) :
    Turned loop processor
      { loop.handOut choice with
        processor := processor
        returned := returned
        pushes := log ++ loop.pushes } := by
  refine ⟨rfl, ?_, ended, ?_, ?_, ?_⟩
  · rw [clock, take_eq future]
    rfl
  · rw [clock]
    rfl
  · simp only [handOut, decide_eq_false (not_lt.mpr future), Bool.or_false]
  · intro push member
    rcases List.mem_append.mp member with new | old
    · exact .inr (ahead push new)
    · exact .inl old

theorem entered (graph : Graph) (config : Config) (going : loop.processor.stopped = false)
    (running : loop.processor.undefined = false)
    (earliest : choice.entry ∈ loop.processor.pending ∧
      ∀ other ∈ loop.processor.pending, choice.entry.arrival ≤ other.arrival) :
    Processor.step graph config loop.processor choice =
      if (loop.processor.take choice.entry).origin = adminEvent then
        some ((loop.processor.dequeue choice).admin graph config
          (loop.processor.take choice.entry) choice.gap)
      else if (loop.processor.take choice.entry).arrival > config.stopTime then
        some { loop.processor.dequeue choice with
          pending := loop.processor.take choice.entry :: loop.processor.pending.erase choice.entry
          stopped := true }
      else match (loop.processor.dequeue choice).handle graph config
          (loop.processor.take choice.entry) choice with
        | none =>
            some { loop.processor.dequeue choice with
              pending :=
                loop.processor.take choice.entry :: loop.processor.pending.erase choice.entry
              undefined := true }
        | some (servers, pushed) =>
            some { (loop.processor.dequeue choice).push pushed with
              servers := servers
              processed := ⟨loop.processor.take choice.entry, choice.serviceTime, pushed⟩ ::
                loop.processor.processed } := by
  have open' : ¬(loop.processor.stopped = true ∨ loop.processor.undefined = true) := by
    simp [going, running]
  rw [Processor.step, if_neg open', if_pos earliest]
  rfl

/-- Nothing in the queue lies in the past after a turn, so nothing that was pushed did. -/
theorem step_ahead (positive : 0 ≤ config.stopTime) (consistent : Consistent config loop.processor)
    {processor : Processor}
    (done : Processor.step graph config loop.processor choice = some processor) :
    processor.oldTime = (loop.processor.take choice.entry).arrival ∧
      ∀ entry ∈ processor.pending,
        (loop.processor.take choice.entry).arrival ≤ entry.arrival := by
  have clock := (Processor.step_cases done).2.oldTime_eq
  refine ⟨clock, ?_⟩
  rw [← clock]
  exact ((consistent.step done).timed positive).future

theorem step_cases (positive : 0 ≤ config.stopTime) (consistent : Consistent config loop.processor)
    (going : loop.processor.stopped = false)
    (stepped : EventLoop.step graph config loop choice = some next) :
    loop.processor.pending = [] ∧ next = { loop with returned := some true } ∨
      ∃ processor, Processor.step graph config loop.processor choice = some processor ∧
        Turned loop processor next := by
  unfold EventLoop.step at stepped
  split at stepped
  · cases stepped
  rename_i running
  simp only [not_or, ne_eq, not_not, Bool.not_eq_true] at running
  split at stepped
  · rename_i empty
    exact .inl ⟨empty, (Option.some.inj stepped).symm⟩
  split at stepped
  case isFalse => cases stepped
  rename_i earliest
  refine .inr ?_
  have future := (consistent.timed positive).future _ earliest.1
  have behind := behind_handOut loop choice
  have entered := entered graph config going running.2 earliest
  have after {processor : Processor}
      (done : Processor.step graph config loop.processor choice = some processor) :=
    step_ahead positive consistent done
  rw [entered] at after ⊢
  dsimp only at stepped
  have stays : loop.returned = if loop.processor.stopped = true then some true else none := by
    rw [going]
    exact running.1
  split at stepped
  · rename_i origin
    rw [if_pos origin] at after ⊢
    obtain ⟨clock, ahead⟩ := after rfl
    obtain ⟨log, accepted, logAhead⟩ := behind.admin ahead
    have same := (Option.some.inj stepped).symm.trans
      (congrArg (fun result => Option.getD result _) accepted)
    rw [same]
    refine ⟨_, rfl, turned_handOut log future clock ?_ logAhead⟩
    rw [admin_stopped]
    exact stays
  rename_i origin
  rw [if_neg origin] at after ⊢
  split at stepped
  · rename_i late
    rw [if_pos late, ← Option.some.inj stepped]
    exact ⟨_, rfl, turned_handOut [] future rfl rfl (by simp)⟩
  rename_i inTime
  rw [if_neg inTime] at after ⊢
  cases handled : (loop.processor.dequeue choice).handle graph config
      (loop.processor.take choice.entry) choice with
  | none =>
      simp only [dequeue] at handled
      rw [handled] at stepped
      rw [← Option.some.inj stepped]
      exact ⟨_, rfl, turned_handOut [] future rfl stays (by simp)⟩
  | some result =>
      obtain ⟨servers, pushed⟩ := result
      rw [handled] at after
      simp only [dequeue] at handled
      rw [handled] at stepped
      dsimp only at stepped ⊢
      obtain ⟨clock, ahead⟩ := after rfl
      obtain ⟨log, accepted, logAhead⟩ := behind.push
        fun entry member => ahead entry (List.mem_append_right _ member)
      simp only [handOut, dequeue] at accepted
      rw [accepted] at stepped
      rw [← Option.some.inj stepped]
      exact ⟨_, rfl, turned_handOut log future clock stays logAhead⟩

/-! Whole runs. -/

structure Accepting (config : Config) (loop : EventLoop) : Prop where
  consistent : Consistent config loop.processor
  stopped : loop.processor.stopped = true → loop.returned = some true
  returned : loop.returned ≠ some false
  corrected : loop.corrected = false
  ahead : ∀ push ∈ loop.pushes, push.1 ≤ push.2.arrival
  sorted : loop.times.Pairwise fun later earlier => earlier ≤ later
  latest : ∀ time ∈ loop.times, time ≤ loop.processor.oldTime

theorem step_running (stepped : EventLoop.step graph config loop choice = some next) :
    loop.returned = none ∧ loop.processor.undefined = false := by
  unfold EventLoop.step at stepped
  split at stepped
  · cases stepped
  · rename_i running
    simpa [not_or] using running

theorem Accepting.going (accepting : Accepting config loop)
    (stepped : EventLoop.step graph config loop choice = some next) :
    loop.processor.stopped = false := by
  rw [Bool.eq_false_iff]
  intro stopped
  have returned := accepting.stopped stopped
  rw [(step_running stepped).1] at returned
  cases returned

theorem Accepting.step (accepting : Accepting config loop) (positive : 0 ≤ config.stopTime)
    (stepped : EventLoop.step graph config loop choice = some next) : Accepting config next := by
  rcases step_cases positive accepting.consistent (accepting.going stepped) stepped with
    ⟨_, rfl⟩ | ⟨processor, done, turned⟩
  · exact { accepting with stopped := fun _ => rfl, returned := by simp }
  have clock : loop.processor.oldTime ≤ processor.oldTime := by
    rw [(Processor.step_cases done).2.oldTime_eq]
    exact oldTime_le_take loop.processor choice.entry
  have earlier (time : ℚ) (member : time ∈ loop.times) : time ≤ processor.oldTime :=
    (accepting.latest time member).trans clock
  constructor
  · rw [turned.turn]
    exact accepting.consistent.step done
  · intro stopped
    rw [turned.turn] at stopped
    rw [turned.returned, if_pos stopped]
  · rw [turned.returned]
    split <;> simp
  · rw [turned.corrected]
    exact accepting.corrected
  · intro push member
    rcases turned.pushes push member with old | new
    · exact accepting.ahead push old
    · exact new
  · rw [turned.times]
    exact List.pairwise_cons.mpr ⟨earlier, accepting.sorted⟩
  · intro time member
    rw [turned.times] at member
    rw [turned.turn]
    rcases List.mem_cons.mp member with rfl | old
    · exact le_rfl
    · exact earlier time old

theorem start_accepting (config : Config) : Accepting config (start config) where
  consistent := start_consistent config
  stopped := by simp [start, Processor.start]
  returned := by simp [start]
  corrected := rfl
  ahead := by simp [start]
  sorted := by simp [start]
  latest := by simp [start]

theorem run_accepting (positive : 0 ≤ config.stopTime) {choices : List Choice} {final : EventLoop}
    (ran : Runs.run (EventLoop.step graph config) (start config) choices = some final) :
    Accepting config final :=
  Runs.run_invariant _ (fun _ _ _ accepting stepped => accepting.step positive stepped)
    (start_accepting config) ran

/-- The loop goes on with every earliest event, whatever its handlers draw and select. -/
theorem step_exists (running : loop.returned = none) (defined : loop.processor.undefined = false)
    (earliest : loop.processor.pending = [] ∨ choice.entry ∈ loop.processor.pending ∧
      ∀ other ∈ loop.processor.pending, choice.entry.arrival ≤ other.arrival) :
    ∃ next, EventLoop.step graph config loop choice = some next := by
  unfold EventLoop.step
  rw [if_neg (by simp [running, defined])]
  split
  · exact ⟨_, rfl⟩
  rename_i nonempty
  rw [if_pos (earliest.resolve_left nonempty)]
  dsimp only
  split
  · exact ⟨_, rfl⟩
  split
  · exact ⟨_, rfl⟩
  split
  · exact ⟨_, rfl⟩
  split
  · exact ⟨_, rfl⟩
  · exact ⟨_, rfl⟩

theorem earliest_exists {pending : List Entry} (some_entry : pending ≠ []) :
    ∃ entry ∈ pending, ∀ other ∈ pending, entry.arrival ≤ other.arrival := by
  cases earliest : pending.argmin Entry.arrival with
  | none => exact absurd (List.argmin_eq_none.mp earliest) some_entry
  | some entry =>
      exact ⟨entry, List.argmin_mem earliest, fun other member =>
        List.le_of_mem_argmin member earliest⟩

end EventLoop

end RlAqs
