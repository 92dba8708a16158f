import RlAqs.Simulator.ServersMatch
import RlAqs.Library.SingleServer

/-!
The busy flag, the time the service ends and the running mean of a vertex are those of a
single server that takes the arrivals of the vertex first come, first served.
-/

namespace RlAqs

open Handlers SingleServer

def Record.job (record : Record) : SingleServer.Job ℚ :=
  { arrival := record.entry.arrival, service := record.serviceTime }

/-- The departure of the `index`-th of the jobs is the only one scheduled for it, at its
completion time, with its delay added. -/
structure Scheduled (vertex : Int) (jobs : List (SingleServer.Job ℚ)) (index : Nat)
    (record : Record) (departure : Entry) : Prop where
  only : departures vertex record.pushed = [departure]
  id : departure.id = record.entry.id
  arrival : departure.arrival = completion jobs (index + 1)
  delay : departure.delay = record.entry.delay + SingleServer.delay jobs index

/-- A server and the arrivals it has seen by the time `now`. -/
structure Fifo (vertex : Int) (server : Server) (now : ℚ) (records : List Record) : Prop where
  numEvents : server.numEvents = toInt records.length
  ends : server.timeServiceEnds = completion (records.map Record.job) records.length
  average : records.length < 2 ^ 31 →
    server.averageDelayInQueue = some (meanDelay (records.map Record.job))
  idle : server.busy = false → server.timeServiceEnds ≤ now
  scheduled : ∀ index, (bound : index < records.length) →
    ∃ departure, Scheduled vertex (records.map Record.job) index records[index] departure

namespace Fifo

variable {vertex : Int} {server : Server} {now later : ℚ} {records : List Record}

theorem fresh : Fifo vertex Server.fresh 0 [] where
  numEvents := by decide
  ends := rfl
  average := by simp [meanDelay, Server.fresh]
  idle := fun _ => le_rfl
  scheduled := by simp

theorem wait (fifo : Fifo vertex server now records) (order : now ≤ later) :
    Fifo vertex server later records where
  numEvents := fifo.numEvents
  ends := fifo.ends
  average := fifo.average
  idle := fun idle => (fifo.idle idle).trans order
  scheduled := fifo.scheduled

theorem departure (fifo : Fifo vertex server now records)
    (graph : Graph) (uid : Nat) (entry : Entry) (selected : Nat)
    (free : (departureHandler graph server uid entry selected).1.busy = false →
      server.timeServiceEnds ≤ later) :
    Fifo vertex (departureHandler graph server uid entry selected).1 later records where
  numEvents := by rw [departureHandler_numEvents]; exact fifo.numEvents
  ends := by rw [departureHandler_timeServiceEnds]; exact fifo.ends
  average := by rw [departureHandler_averageDelayInQueue]; exact fifo.average
  idle := fun idle => by rw [departureHandler_timeServiceEnds]; exact free idle
  scheduled := fifo.scheduled

/-- The service of the next arrival starts at the later of its arrival and the end of the
service before, whichever branch of the handler is taken. -/
theorem service_start (fifo : Fifo vertex server now records) (entry : Entry)
    (order : now ≤ entry.arrival)
    (ahead : server.busy = true → entry.arrival ≤ server.timeServiceEnds) :
    (if server.busy then server.timeServiceEnds else entry.arrival) =
      max entry.arrival server.timeServiceEnds := by
  split
  · rename_i busy
    exact (max_eq_right (ahead busy)).symm
  · rename_i free
    exact (max_eq_left ((fifo.idle (Bool.not_eq_true _ ▸ free)).trans order)).symm

theorem delayOf_eq (fifo : Fifo vertex server now records) (entry : Entry)
    (order : now ≤ entry.arrival) :
    delayOf server entry = max 0 (server.timeServiceEnds - entry.arrival) := by
  unfold delayOf
  split
  · rfl
  · rename_i free
    have ended := (fifo.idle (Bool.not_eq_true _ ▸ free)).trans order
    exact (max_eq_left (sub_nonpos.mpr ended)).symm

theorem arrival (fifo : Fifo vertex server now records) (entry : Entry)
    (type : entry.type = lastArrivalEvent ∨ entry.type = arrivalEvent)
    (order : now ≤ entry.arrival)
    (ahead : server.busy = true → entry.arrival ≤ server.timeServiceEnds)
    (uid : Nat) (serviceTime : ℚ≥0) (pushed : List Entry)
    (only : departures vertex pushed =
      [(arrivalHandler (numEventsHandler server entry) uid entry serviceTime).2]) :
    Fifo vertex (arrivalHandler (numEventsHandler server entry) uid entry serviceTime).1
      entry.arrival (records ++ [⟨entry, serviceTime, pushed⟩]) := by
  have length : (records.map Record.job).length = records.length := List.length_map _
  have starts := fifo.service_start entry order ahead
  have waits := fifo.delayOf_eq entry order
  have sameDelay : delayOf (numEventsHandler server entry) entry = delayOf server entry := by
    simp [delayOf]
  have counted : (numEventsHandler server entry).numEvents = toInt (records.length + 1) := by
    rw [numEventsHandler_numEvents server entry type, fifo.numEvents, toInt_toInt_add]
  have ends : (arrivalHandler (numEventsHandler server entry) uid entry
      serviceTime).1.timeServiceEnds =
      completion ((records ++ [(⟨entry, serviceTime, pushed⟩ : Record)]).map Record.job)
        (records.length + 1) := by
    have snoc := completion_snoc (records.map Record.job)
      (Record.job ⟨entry, serviceTime, pushed⟩)
    rw [length, ← fifo.ends] at snoc
    rw [arrivalHandler_timeServiceEnds, numEventsHandler_busy,
      numEventsHandler_timeServiceEnds, starts, List.map_append, List.map_singleton, snoc]
    rfl
  constructor
  · rw [arrivalHandler_numEvents, counted, List.length_append, List.length_singleton]
    rfl
  · rw [ends, List.length_append, List.length_singleton]
  · intro few
    rw [List.length_append, List.length_singleton] at few
    have snoc := meanDelay_snoc (records.map Record.job)
      (Record.job ⟨entry, serviceTime, pushed⟩)
    rw [length, ← fifo.ends] at snoc
    have average := (numEventsHandler_averageDelayInQueue server entry).trans
      (fifo.average (by omega))
    rw [arrivalHandler_averageDelayInQueue, sameDelay, waits, addDelay_eq few counted average,
      List.map_append, List.map_singleton, snoc]
    rfl
  · intro idle
    rw [arrivalHandler_busy] at idle
    cases idle
  · intro index bound
    rw [List.length_append, List.length_singleton] at bound
    rcases Nat.lt_succ_iff_lt_or_eq.mp bound with earlier | new
    · obtain ⟨departure, scheduled⟩ := fifo.scheduled index earlier
      refine ⟨departure, ?_⟩
      rw [List.getElem_append_left earlier, List.map_append]
      constructor
      · exact scheduled.only
      · exact scheduled.id
      · rw [completion_append _ (by omega), scheduled.arrival]
      · rw [delay_append _ (by omega), scheduled.delay]
    · subst new
      refine ⟨(arrivalHandler (numEventsHandler server entry) uid entry serviceTime).2, ?_⟩
      rw [List.getElem_concat_length rfl]
      constructor
      · exact only
      · exact arrivalHandler_id ..
      · rw [arrivalHandler_arrival, ends]
      · have snoc := delay_snoc (records.map Record.job)
          (Record.job ⟨entry, serviceTime, pushed⟩)
        rw [length, ← fifo.ends] at snoc
        rw [arrivalHandler_delay, sameDelay, waits, List.map_append, List.map_singleton, snoc]
        rfl

end Fifo

namespace Processor

open EventGenerator

variable {graph : Graph} {config : Config} {processor next : Processor} {choice : Choice}

def Queued (processor : Processor) : Prop :=
  ∀ vertex, Fifo vertex (processor.servers vertex) processor.oldTime
    (visits vertex processor.processed)

theorem start_queued (config : Config) : Queued (start config) := fun _ => Fifo.fresh

theorem Queued.step (queued : Queued processor) (consistent : Consistent config processor)
    (stepped : Processor.step graph config processor choice = some next) : Queued next := by
  obtain ⟨dequeued, turn⟩ := step_cases stepped
  have order := oldTime_le_take processor choice.entry
  intro vertex
  have here := consistent.vertexTurn dequeued turn vertex
  rw [turn.oldTime_eq]
  generalize next.servers vertex = server at here ⊢
  generalize departures vertex next.pending = leaving at here
  generalize visits vertex next.processed = records at here ⊢
  cases here with
  | same perm => exact (queued vertex).wait order
  | arrival begun entry time type ahead uid serviceTime only =>
      rw [← time] at order ⊢
      exact (queued vertex).arrival entry type order ahead uid serviceTime _ only
  | departure member time uid handled selected =>
      refine (queued vertex).departure graph uid handled selected fun idle => ?_
      -- The server is free only after its last departure, which was at the end of its service.
      have served := consistent.served vertex
      rcases served.nonneg.eq_or_lt with empty | waiting
      · rw [← (served.alone member empty.symm).2, time]
      · rw [departureHandler_next _ _ _ _ _ waiting, served.busy_of_mem member] at idle
        cases idle

theorem run_queued {choices : List Choice} {final : Processor}
    (ran : Runs.run (Processor.step graph config) (start config) choices = some final) :
    Consistent config final ∧ Queued final := by
  refine ⟨run_consistent ran, run_keeps (start_queued config) ?_ ran⟩
  exact fun _ _ _ consistent queued stepped => queued.step consistent stepped

/-- In every run each vertex is a first-come first-served single server: the departure of
its `index`-th arrival is scheduled at the time the Lindley recursion gives, and the
average delay is the mean of the delays as long as an `int` counts them. -/
theorem run_lindley {choices : List Choice} {final : Processor}
    (ran : Runs.run (Processor.step graph config) (start config) choices = some final)
    (vertex : Int) :
    let records := visits vertex final.processed
    let jobs := records.map Record.job
    completion jobs 0 = 0 ∧
      (∀ index, (bound : index < records.length) →
        completion jobs (index + 1) =
          max records[index].entry.arrival (completion jobs index) +
            records[index].serviceTime ∧
        completion jobs index ≤ completion jobs (index + 1) ∧
        delay jobs index = max 0 (completion jobs index - records[index].entry.arrival) ∧
        ∃ departure, departures vertex records[index].pushed = [departure] ∧
          departure.id = records[index].entry.id ∧
          departure.arrival = completion jobs (index + 1) ∧
          departure.delay = records[index].entry.delay + delay jobs index) ∧
      (records.length < 2 ^ 31 → (final.servers vertex).averageDelayInQueue =
        some ((∑ index ∈ Finset.range records.length, delay jobs index) / records.length)) := by
  have fifo := (run_queued ran).2 vertex
  refine ⟨rfl, fun index bound => ?_, ?_⟩
  · have inside : index < ((visits vertex final.processed).map Record.job).length := by
      rwa [List.length_map]
    have nonneg : ∀ job ∈ (visits vertex final.processed).map Record.job,
        0 ≤ job.service := by
      intro job member
      obtain ⟨record, _, rfl⟩ := List.mem_map.mp member
      exact record.serviceTime.coe_nonneg
    obtain ⟨departure, scheduled⟩ := fifo.scheduled index bound
    refine ⟨?_, completion_le_succ nonneg index, ?_, departure, scheduled.only, scheduled.id,
      scheduled.arrival, scheduled.delay⟩
    · rw [completion_succ inside, List.getElem_map]
      rfl
    · rw [delay_eq inside, List.getElem_map]
      rfl
  · intro few
    rw [fifo.average few, meanDelay, totalDelay, List.length_map]

theorem run_lindley_waiting :
    ∃ final, Runs.run (Processor.step lone { stopTime := 10 }) (start { stopTime := 10 })
        twoArrivals = some final ∧
      (final.servers 0).averageDelayInQueue =
        some ((∑ index ∈ Finset.range (visits 0 final.processed).length,
          delay ((visits 0 final.processed).map Record.job) index) /
            (visits 0 final.processed).length) := by
  obtain ⟨final, ran⟩ := twoArrivals_run
  have checked : ∀ final ∈ Runs.run (Processor.step lone { stopTime := 10 })
      (start { stopTime := 10 }) twoArrivals, (visits 0 final.processed).length < 2 ^ 31 := by
    decide +kernel
  exact ⟨final, ran, (run_lindley ran 0).2.2 (checked final ran)⟩

/-! Where the count of an `int` ends: arrivals at every unit of time while the first of them is
served. -/

def crowdConfig (horizon : Nat) : Config := { stopTime := horizon }

def crowdService (horizon index : Nat) : ℚ≥0 := if index = 0 then horizon else (1 : ℕ)

def crowdJob (horizon index : Nat) : SingleServer.Job ℚ where
  arrival := index + 1
  service := crowdService horizon index

theorem completion_crowd (horizon : Nat) {count index : Nat} (bound : index < count)
    (early : count ≤ horizon) :
    completion ((List.range count).map (crowdJob horizon)) (index + 1) = horizon + index + 1 := by
  induction index with
  | zero =>
      rw [completion_succ (by simpa using bound)]
      simp [crowdJob, crowdService, add_comm]
  | succ index ih =>
      have later : (index : ℚ) + 2 ≤ horizon + index + 1 := by
        have positive : (1 : ℚ) ≤ horizon := by exact_mod_cast (by omega : 1 ≤ horizon)
        linarith
      rw [completion_succ (by simpa using bound), ih (by omega)]
      simp only [crowdJob, crowdService, List.getElem_map, List.getElem_range]
      rw [if_neg index.succ_ne_zero, max_eq_right (by push_cast; linarith)]
      push_cast
      ring

theorem delay_crowd (horizon : Nat) {count index : Nat} (bound : index < count)
    (early : count ≤ horizon) :
    delay ((List.range count).map (crowdJob horizon)) index =
      if index = 0 then 0 else (horizon : ℚ) - 1 := by
  have positive : (1 : ℚ) ≤ horizon := by exact_mod_cast (by omega : 1 ≤ horizon)
  rw [delay_eq (by simpa using bound)]
  cases index with
  | zero => simp [crowdJob]
  | succ index =>
      rw [completion_crowd horizon (by omega) early, if_neg index.succ_ne_zero]
      simp only [crowdJob, List.getElem_map, List.getElem_range]
      rw [max_eq_right (by push_cast; linarith)]
      push_cast
      ring

theorem meanDelay_crowd (horizon : Nat) {count : Nat} (early : count + 1 ≤ horizon) :
    meanDelay ((List.range (count + 1)).map (crowdJob horizon)) =
      count * ((horizon : ℚ) - 1) / (count + 1 : ℕ) := by
  have each : ∀ index ∈ Finset.range (count + 1),
      delay ((List.range (count + 1)).map (crowdJob horizon)) index =
        if index = 0 then 0 else (horizon : ℚ) - 1 := fun index member =>
    delay_crowd horizon (Finset.mem_range.mp member) early
  rw [meanDelay, totalDelay, List.length_map, List.length_range, Finset.sum_congr rfl each,
    Finset.sum_range_succ']
  simp [mul_sub]

/-- The loop after so many arrivals: only the next one is pending before the horizon. -/
structure Crowded (horizon count : Nat) (processor : Processor) : Prop where
  running : processor.stopped = false ∧ processor.undefined = false
  past : processor.oldTime ≤ count + 1
  next : ∃ entry ∈ processor.pending, entry.type = lastArrivalEvent ∧
    entry.origin = externalEvent ∧ entry.destination = 0 ∧ entry.arrival = count + 1 ∧
    ∀ other ∈ processor.pending.erase entry, horizon ≤ other.arrival
  ends : if (processor.servers 0).busy then (horizon : ℚ) ≤ (processor.servers 0).timeServiceEnds
    else count = 0
  jobs : (visits 0 processor.processed).map Record.job =
    (List.range count).map (crowdJob horizon)

theorem start_crowded (horizon : Nat) :
    ∃ choice next, Processor.step lone (crowdConfig horizon) (start (crowdConfig horizon)) choice =
      some next ∧ Crowded horizon 0 next := by
  have stepped : Processor.step lone (crowdConfig horizon) (start (crowdConfig horizon))
      ⟨generateAdminEventType 0 0 generateArrivalEvent, 0, fun _ => (1 : ℕ), 0⟩ =
      some { start (crowdConfig horizon) with
        pending := [generateArrival 1 0 0 (1 : ℕ)]
        uid := 2 } := rfl
  refine ⟨_, _, stepped, ⟨rfl, rfl⟩, ?_,
    ⟨generateArrival 1 0 0 (1 : ℕ), List.mem_singleton_self _, rfl, rfl, rfl, ?_, ?_⟩, rfl, rfl⟩
  · simp [start]
  · simp [generateArrival, Entry.new]
  · simp

theorem mem_of_mem_erase_pair {entries : List Entry} {first second other : Entry}
    (inside : other ∈ (entries ++ [first, second]).erase first) :
    other ∈ entries ∨ other = second := by
  rw [List.erase_append] at inside
  split at inside
  · rename_i twice
    rcases List.mem_append.mp inside with old | new
    · exact .inl (List.mem_of_mem_erase old)
    · rcases List.mem_pair.mp new with rfl | rfl
      · exact .inl twice
      · exact .inr rfl
  · rw [List.erase_cons_head] at inside
    exact (List.mem_append.mp inside).imp_right List.mem_singleton.mp

/-- With the first arrival in service no other one gets through before the horizon. -/
theorem Crowded.leaves {horizon count : Nat} {processor : Processor}
    (crowded : Crowded horizon count processor) {entry : Entry} (arrival : entry.arrival = count + 1)
    (uid : Nat) : (horizon : ℚ) ≤ (arrivalHandler (numEventsHandler (processor.servers 0) entry) uid
      entry (crowdService horizon count)).1.timeServiceEnds := by
  have ends := crowded.ends
  rw [arrivalHandler_timeServiceEnds, numEventsHandler_busy, numEventsHandler_timeServiceEnds]
  split at ends
  · rename_i busy
    rw [if_pos busy]
    exact le_add_of_le_of_nonneg ends (NNRat.cast_nonneg _)
  · rename_i free
    subst ends
    rw [if_neg free, arrival, crowdService, if_pos rfl]
    simp

theorem Crowded.step {horizon count : Nat} {processor : Processor}
    (crowded : Crowded horizon count processor) (early : count + 2 ≤ horizon) :
    ∃ choice next, Processor.step lone (crowdConfig horizon) processor choice = some next ∧
      Crowded horizon (count + 1) next ∧
      ∃ entry : Entry, (entry.type = lastArrivalEvent ∨ entry.type = arrivalEvent) ∧
        entry.arrival = (count : ℚ) + 1 ∧ (next.servers 0).averageDelayInQueue =
          (numEventsHandler (processor.servers 0) entry).addDelay
            (delayOf (processor.servers 0) entry) := by
  obtain ⟨entry, member, type, origin, destination, arrival, others⟩ := crowded.next
  have inTime : (count : ℚ) + 2 ≤ horizon := by exact_mod_cast early
  have taken : processor.take entry = entry := take_eq (crowded.past.trans arrival.ge)
  have earliest : ∀ other ∈ processor.pending, entry.arrival ≤ other.arrival := by
    intro other inside
    by_cases same : other = entry
    · exact same ▸ le_rfl
    · have later := others other ((List.mem_erase_of_ne same).mpr inside)
      linarith
  let choice : Choice := ⟨entry, crowdService horizon count, fun _ => (1 : ℕ), 0⟩
  let generated := generateArrivalsHandler processor.uid entry (1 : ℕ)
  let arrived := arrivalHandler (numEventsHandler (processor.servers 0) entry) (processor.uid + 1)
    entry (crowdService horizon count)
  have stepped : Processor.step lone (crowdConfig horizon) processor choice =
      some (processor.handled choice (Function.update processor.servers 0 arrived.1)
        [generated, arrived.2]) := by
    have going : ¬(crowdConfig horizon).stopTime < entry.arrival := by
      rw [arrival, crowdConfig]
      linarith
    simpa [Processor.step, crowded.running, choice, member, taken, origin, going, handle, type,
      destination, handled, push, arrived, generated] using earliest
  have leaves : (horizon : ℚ) ≤ arrived.1.timeServiceEnds := crowded.leaves arrival _
  refine ⟨choice, _, stepped, ⟨crowded.running, ?_, ⟨generated, ?_, rfl, rfl, destination, ?_, ?_⟩,
    ?_, ?_⟩, entry, .inl type, arrival, ?_⟩
  · simp [handled, choice, taken, arrival]
  · simp [handled]
  · simp [generated, generateArrivalsHandler, generateArrival, Entry.new, arrival]
  · intro other inside
    simp only [handled, choice] at inside
    rcases mem_of_mem_erase_pair inside with old | rfl
    · exact others other old
    · exact leaves.trans_eq (arrivalHandler_arrival ..).symm
  · have busy : arrived.1.busy = true := arrivalHandler_busy ..
    simp only [handled, Function.update_self, busy, if_true]
    exact leaves
  · have visit : Record.IsVisit 0 ⟨processor.take choice.entry, choice.serviceTime,
        [generated, arrived.2]⟩ := ⟨.inl (by rw [take_type]; exact type),
      by rw [take_destination]; exact destination⟩
    simp only [handled]
    rw [visits_cons_visit visit, List.map_append, crowded.jobs, List.range_succ, List.map_append,
      List.map_singleton, List.map_singleton]
    simp only [Record.job, choice, taken, arrival, crowdJob]
  · simp [handled, arrived, arrivalHandler_averageDelayInQueue, delayOf]

theorem run_crowded (horizon count : Nat) (early : count + 1 ≤ horizon) :
    ∃ choices final, Runs.run (Processor.step lone (crowdConfig horizon))
        (start (crowdConfig horizon)) choices = some final ∧ Crowded horizon count final := by
  induction count with
  | zero =>
      obtain ⟨choice, next, stepped, crowded⟩ := start_crowded horizon
      exact ⟨[choice], next, by simp [Runs.run_cons, stepped], crowded⟩
  | succ count ih =>
      obtain ⟨choices, before, ran, crowded⟩ := ih (by omega)
      obtain ⟨choice, next, stepped, kept, _⟩ := crowded.step (by omega)
      exact ⟨choices ++ [choice], next, Runs.run_concat ran stepped, kept⟩

theorem meanDelay_crowd_lt (horizon : Nat) {count : Nat} (early : count + 1 < horizon) :
    meanDelay ((List.range (count + 1)).map (crowdJob horizon)) < (horizon : ℚ) - 1 := by
  have positive : (0 : ℚ) < horizon - 1 := by
    have room : ((count + 1 : ℕ) : ℚ) < horizon := by exact_mod_cast early
    push_cast at room
    linarith [count.cast_nonneg (α := ℚ)]
  rw [meanDelay_crowd horizon early.le, div_lt_iff₀ (by positivity)]
  push_cast
  linarith

/-- The arrival that makes the count negative moves the mean away from its delay. -/
theorem Crowded.mean_step {horizon count : Nat} {choices : List Choice} {before : Processor}
    (ran : Runs.run (Processor.step lone (crowdConfig horizon)) (start (crowdConfig horizon))
      choices = some before)
    (crowded : Crowded horizon (count + 1) before) (last : count + 2 = 2 ^ 31)
    (early : count + 3 ≤ horizon) :
    ∃ choice next, Processor.step lone (crowdConfig horizon) before choice = some next ∧
      ∃ mean, (next.servers 0).averageDelayInQueue = some mean ∧
        mean < meanDelay ((visits 0 next.processed).map Record.job) := by
  obtain ⟨choice, next, stepped, kept, entry, type, arrival, average⟩ := crowded.step early
  have fifo := (run_queued ran).2 0
  have jobs := crowded.jobs
  have length : (visits 0 before.processed).length = count + 1 := by
    simpa using congrArg List.length jobs
  have mean := fifo.average (by omega)
  rw [jobs] at mean
  have ends := fifo.ends
  rw [jobs, length, completion_crowd horizon count.lt_succ_self (by omega)] at ends
  have positive : (1 : ℚ) ≤ horizon := by exact_mod_cast (by omega : 1 ≤ horizon)
  have delay : delayOf (before.servers 0) entry = horizon - 1 := by
    rw [fifo.delayOf_eq entry (by rw [arrival]; exact crowded.past), ends, arrival,
      max_eq_right (by push_cast; linarith)]
    push_cast
    ring
  have counted : (numEventsHandler (before.servers 0) entry).numEvents =
      toInt (count + 2 : Nat) := by
    rw [numEventsHandler_numEvents _ _ type, fifo.numEvents, length, toInt_toInt_add]
    congr 1
  have negative : ((toInt (count + 2 : Nat) : Int) : ℚ) < 0 := by
    have below : toInt (count + 2 : Nat) < 0 := by
      rw [toInt_of_large last.ge (by omega)]
      omega
    exact_mod_cast below
  have below := meanDelay_crowd_lt horizon (show count + 1 < horizon by omega)
  have waits : max 0 (completion ((List.range (count + 1)).map (crowdJob horizon)) (count + 1) -
      (crowdJob horizon (count + 1)).arrival) = (horizon : ℚ) - 1 := by
    rw [completion_crowd horizon count.lt_succ_self (by omega), crowdJob,
      max_eq_right (by push_cast; linarith)]
    push_cast
    ring
  rw [Server.addDelay, numEventsHandler_averageDelayInQueue, mean, Option.bind_some, Stats.mean,
    counted, toInt_toInt, divide, if_neg negative.ne, Option.map_some, delay] at average
  refine ⟨choice, next, stepped, _, average, ?_⟩
  have grown := meanDelay_snoc ((List.range (count + 1)).map (crowdJob horizon))
    (crowdJob horizon (count + 1))
  rw [List.length_map, List.length_range, waits, ← List.map_singleton, ← List.map_append,
    ← List.range_succ, ← kept.jobs] at grown
  rw [grown]
  have down := div_neg_of_pos_of_neg (sub_pos.mpr below) negative
  have up := div_pos (sub_pos.mpr below) (by positivity : (0 : ℚ) < (count + 1 + 1 : ℕ))
  linarith

/-- From the 2^31st arrival on the mean that the server keeps is not that of the delays. -/
theorem mean_of_negative :
    ¬∀ (graph : Graph) (config : Config) (choices : List Choice) (final : Processor),
      Runs.run (Processor.step graph config) (start config) choices = some final →
        ∀ vertex, (final.servers vertex).averageDelayInQueue =
          some (meanDelay ((visits vertex final.processed).map Record.job)) := by
  intro always
  obtain ⟨count, last⟩ : ∃ count, count + 2 = 2 ^ 31 := ⟨2 ^ 31 - 2, rfl⟩
  obtain ⟨choices, before, ran, crowded⟩ := run_crowded (count + 3) (count + 1) (by omega)
  obtain ⟨choice, next, stepped, mean, average, less⟩ := crowded.mean_step ran last le_rfl
  have claimed := always _ _ _ _ (Runs.run_concat ran stepped) 0
  rw [average, Option.some_inj] at claimed
  exact less.ne claimed

end Processor

end RlAqs
