import RlAqs.Library.Remaining
import RlAqs.Simulator.ServersFifo
import RlAqs.Statistics.LoadMeasured

/-!
Little's law for the statistics of a vertex: the delays that its arrivals have met add up to the
integral of its waiting count, but for what is still ahead of the ones that wait.
-/

namespace RlAqs

open Handlers Processor Remaining SingleServer

variable {graph : Graph} {config : Config} {vertex : Int} {choice : Choice} {choices : List Choice}

/-! The balance. -/

/-- What those that wait at a server still have to wait: all pending departures but the last are
starts of a service. -/
def stillWaiting (server : Server) (leaving : List Entry) (now : ℚ) : ℚ :=
  remaining Entry.arrival leaving now - if server.busy then server.timeServiceEnds - now else 0

theorem stillWaiting_later {server : Server} {leaving : List Entry}
    (served : Served config server leaving) (now later : ℚ) :
    stillWaiting server leaving now =
      stillWaiting server leaving later + server.numberInQueue * (later - now) := by
  have counted : (leaving.length : ℚ) = server.numberInQueue + if server.busy then 1 else 0 := by
    exact_mod_cast congrArg (Int.cast (R := ℚ)) served.counted
  rw [stillWaiting, stillWaiting, remaining_later _ _ now later, counted]
  split <;> ring

theorem stillWaiting_none {server : Server} {leaving : List Entry}
    (served : Served config server leaving) (empty : server.numberInQueue = 0) (now : ℚ) :
    stillWaiting server leaving now = 0 := by
  cases busy : server.busy with
  | false =>
      rw [served.empty_of_idle busy]
      simp [stillWaiting, busy]
  | true =>
      obtain ⟨last, member, ends⟩ := served.latest busy
      simp [stillWaiting, (served.alone member empty).1, busy, remaining, ends]

def delays (records : List Record) : ℚ := totalDelay (records.map Record.job)

section Balance

variable {server : Server} {leaving : List Entry} {now : ℚ}

/-- An arrival meets the delay that it adds to what is still ahead of those that wait. -/
theorem arrival_balance {records : List Record} {entry : Entry}
    (fifo : Fifo vertex server now records) (order : now ≤ entry.arrival)
    (ahead : server.busy = true → entry.arrival ≤ server.timeServiceEnds) (uid : Nat)
    (serviceTime : ℚ≥0) (pushed : List Entry) :
    delays (records ++ [⟨entry, serviceTime, pushed⟩]) -
        stillWaiting (arrivalHandler (numEventsHandler server entry) uid entry serviceTime).1
          (leaving ++ [(arrivalHandler (numEventsHandler server entry) uid entry serviceTime).2])
          entry.arrival =
      delays records - stillWaiting server leaving entry.arrival := by
  have delay : delayOf server entry =
      if server.busy then server.timeServiceEnds - entry.arrival else 0 := by
    unfold delayOf
    split
    · rename_i busy
      exact max_eq_right (sub_nonneg.mpr (ahead busy))
    · rfl
  have more : delays (records ++ [⟨entry, serviceTime, pushed⟩]) =
      delays records + delayOf server entry := by
    rw [delays, List.map_append, List.map_singleton, totalDelay_snoc, List.length_map,
      ← fifo.ends, fifo.delayOf_eq entry order]
    rfl
  rw [more, delay, stillWaiting, stillWaiting, remaining_concat, arrivalHandler_arrival,
    arrivalHandler_busy, if_pos rfl]
  ring

theorem departure_balance {entry : Entry} (served : Served config server leaving)
    (member : entry ∈ leaving) (uid : Nat) (handled : Entry) (selected : Nat) :
    stillWaiting (departureHandler graph server uid handled selected).1 (leaving.erase entry)
        entry.arrival =
      stillWaiting server leaving entry.arrival := by
  have busy := served.busy_of_mem member
  rw [stillWaiting, stillWaiting, remaining_erase _ _ member]
  rcases served.nonneg.eq_or_lt with empty | waiting
  · rw [departureHandler_last _ _ _ _ _ empty.symm, busy, (served.alone member empty.symm).2]
    simp
  · rw [departureHandler_next _ _ _ _ _ waiting]

end Balance

section Little

variable {initial : SystemStatistics} {state next final : Processor × Monitor}

/-- The delays that were met are the area under the waiting count and what is still ahead. -/
structure DelayBalanced (graph : Graph) (config : Config) (initial : SystemStatistics) (vertex : Int)
    (choices : List Choice) (state : Processor × Monitor) : Prop where
  consistent : Consistent config state.1
  queued : Queued state.1
  newest : ∃ earlier, queueLengths graph config initial vertex choices =
    (state.1.oldTime, ((state.1.servers vertex).numberInQueue : ℚ)) :: earlier
  balance : delays (visits vertex state.1.processed) -
      stillWaiting (state.1.servers vertex) (departures vertex state.1.pending) state.1.oldTime =
    Timeline.integral (queueLengths graph config initial vertex choices) state.1.oldTime

theorem start_delayBalanced : DelayBalanced graph config initial vertex []
    (Processor.start config, Monitor.start initial) where
  consistent := start_consistent config
  queued := start_queued config
  newest := ⟨[], rfl⟩
  balance := by
    have none : departures vertex (Processor.start config).pending = [] :=
      ((start_consistent config).served vertex).empty_of_idle rfl
    rw [none]
    simp [delays, visits, stillWaiting, queueLengths, Runs.states, Processor.start, Server.fresh,
      Timeline.integral]

theorem DelayBalanced.step (balanced : DelayBalanced graph config initial vertex choices state)
    (ran : Runs.run (Monitor.step graph config) (Processor.start config, Monitor.start initial)
      choices = some state)
    (stepped : Monitor.step graph config state choice = some next) :
    DelayBalanced graph config initial vertex (choices ++ [choice]) next := by
  obtain ⟨done, _⟩ := Monitor.step_cases stepped
  have clock := step_oldTime done
  have served := balanced.consistent.served vertex
  have longer : queueLengths graph config initial vertex (choices ++ [choice]) =
      (next.1.oldTime, ((next.1.servers vertex).numberInQueue : ℚ)) ::
        queueLengths graph config initial vertex choices := by
    rw [queueLengths, Runs.states_concat ran stepped, List.map_cons, queueLengths]
  refine ⟨balanced.consistent.step done, balanced.queued.step balanced.consistent done,
    ⟨_, longer⟩, ?_⟩
  obtain ⟨earlier, newest⟩ := balanced.newest
  -- Until the turn the queue stays as it is and what is ahead of it shrinks.
  have waited : delays (visits vertex state.1.processed) -
        stillWaiting (state.1.servers vertex) (departures vertex state.1.pending) next.1.oldTime =
      Timeline.integral (queueLengths graph config initial vertex (choices ++ [choice]))
        next.1.oldTime := by
    have before := balanced.balance
    rw [newest, stillWaiting_later served _ next.1.oldTime] at before
    rw [longer, Timeline.integral_cons_self, newest,
      Timeline.integral_later _ _ state.1.oldTime next.1.oldTime, ← before]
    ring
  rw [← waited, clock]
  obtain ⟨dequeued, turn⟩ := Processor.step_cases done
  have here := balanced.consistent.vertexTurn dequeued turn vertex
  generalize next.1.servers vertex = server at here ⊢
  generalize departures vertex next.1.pending = leaving at here ⊢
  generalize visits vertex next.1.processed = records at here ⊢
  cases here with
  | same perm => rw [stillWaiting, remaining_perm _ _ _ perm, stillWaiting]
  | arrival begun entry time type ahead uid serviceTime only =>
      have order := oldTime_le_take state.1 choice.entry
      rw [← time] at order ⊢
      exact arrival_balance (balanced.queued vertex) order ahead uid serviceTime _
  | departure member time uid handled selected =>
      rw [← time, departure_balance served member]

theorem run_delayBalanced
    (ran : Runs.run (Monitor.step graph config) (Processor.start config, Monitor.start initial)
      choices = some final) (vertex : Int) :
    DelayBalanced graph config initial vertex choices final := by
  refine Runs.run_induction (motive := fun choices state =>
    DelayBalanced graph config initial vertex choices state) start_delayBalanced ?_ ran
  rintro choices before choice after ran balanced stepped
  exact balanced.step ran stepped

/-- In every state of a run the delays of a vertex add up to the area under its waiting count and
what is still ahead of the ones that wait, as long as an `int` counts the arrivals; once nobody
waits, the number of arrivals times their mean delay is the area, and no more than what the vertex
has for it. -/
theorem run_little
    (ran : Runs.run (Monitor.step graph config) (Processor.start config, Monitor.start initial)
      choices = some final) (vertex : Int)
    (few : (visits vertex final.1.processed).length < 2 ^ 31) :
    let server := final.1.servers vertex
    let now := final.1.oldTime
    let area := Timeline.integral (queueLengths graph config initial vertex choices) now
    ∃ delay, server.averageDelayInQueue = some delay ∧
      (server.numEvents : ℚ) * delay = area +
        (((departures vertex final.1.pending).map fun entry => entry.arrival - now).sum -
          if server.busy then server.timeServiceEnds - now else 0) ∧
      (server.numberInQueue = 0 →
        (server.numEvents : ℚ) * delay = area ∧
          (server.numEvents : ℚ) * delay ≤ (final.2.vertices vertex).qdt ∧
          ((server.numEvents : ℚ) * delay = (final.2.vertices vertex).qdt ↔
            Runs.Along (Monitor.step graph config) (Timely config vertex)
              (Processor.start config, Monitor.start initial) choices)) := by
  intro server now area
  have balanced := run_delayBalanced ran vertex
  have fifo := balanced.queued vertex
  let records := visits vertex final.1.processed
  have total : (server.numEvents : ℚ) * meanDelay (records.map Record.job) = delays records := by
    rw [show server.numEvents = _ from fifo.numEvents, toInt_natCast few, Int.cast_natCast, delays,
      ← length_mul_meanDelay, List.length_map]
  have balance : delays records = area +
      stillWaiting server (departures vertex final.1.pending) now :=
    sub_eq_iff_eq_add.mp balanced.balance
  refine ⟨meanDelay (records.map Record.job), fifo.average few, total.trans balance,
    fun empty => ?_⟩
  rw [stillWaiting_none (balanced.consistent.served vertex) empty, add_zero] at balance
  obtain ⟨excess, measured⟩ := run_queueMeasured ran vertex
  obtain ⟨earlier, lengths, settled⟩ := measured.settled
  have sum := settled.balance
  rw [← lengths, show (final.1.servers vertex).numberInQueue = 0 from empty, Int.cast_zero,
    zero_mul, add_zero] at sum
  have qdt : (final.2.vertices vertex).qdt = delays records + excess := balance ▸ sum
  rw [total]
  refine ⟨balance, ?_, ?_⟩
  · rw [qdt]
    exact le_add_of_nonneg_right measured.positive
  · rw [qdt, ← measured.exact]
    exact left_eq_add

theorem run_little_two_arrivals :
    ∃ final delay,
      Runs.run (Monitor.step lone { stopTime := 10 })
        (Processor.start { stopTime := 10 }, Monitor.start ⟨some 0, some 0, some 0⟩)
        twoArrivals = some final ∧
      (final.1.servers 0).averageDelayInQueue = some delay ∧
      ((final.1.servers 0).numEvents : ℚ) * delay =
        Timeline.integral
            (queueLengths lone { stopTime := 10 } ⟨some 0, some 0, some 0⟩ 0 twoArrivals)
            final.1.oldTime +
          (((departures 0 final.1.pending).map fun entry =>
              entry.arrival - final.1.oldTime).sum -
            if (final.1.servers 0).busy then (final.1.servers 0).timeServiceEnds - final.1.oldTime
            else 0) := by
  have through : ((Runs.run (Monitor.step lone { stopTime := 10 })
      (Processor.start { stopTime := 10 }, Monitor.start ⟨some 0, some 0, some 0⟩)
      twoArrivals).any fun final => (visits 0 final.1.processed).length < 2 ^ 31) = true := by
    decide +kernel
  obtain ⟨final, ran, few⟩ := (Option.any_eq_true _ _).mp through
  obtain ⟨delay, average, balance, _⟩ := run_little ran 0 (of_decide_eq_true few)
  exact ⟨final, delay, ran, average, balance⟩

end Little

end RlAqs
