import RlAqs.Simulator.HandlersCore
import Mathlib.Tactic.Linarith

/-!
What each event handler does to its server and to the entry it passes on, field by field.
-/

namespace RlAqs

namespace Handlers

open EventGenerator

section numEvents

variable (server : Server) (entry : Entry)

@[simp] theorem numEventsHandler_busy :
    (numEventsHandler server entry).busy = server.busy := by
  unfold numEventsHandler; split <;> rfl

@[simp] theorem numEventsHandler_numberInQueue :
    (numEventsHandler server entry).numberInQueue = server.numberInQueue := by
  unfold numEventsHandler; split <;> rfl

@[simp] theorem numEventsHandler_timeServiceEnds :
    (numEventsHandler server entry).timeServiceEnds = server.timeServiceEnds := by
  unfold numEventsHandler; split <;> rfl

@[simp] theorem numEventsHandler_averageDelayInQueue :
    (numEventsHandler server entry).averageDelayInQueue = server.averageDelayInQueue := by
  unfold numEventsHandler; split <;> rfl

theorem numEventsHandler_numEvents
    (type : entry.type = lastArrivalEvent ∨ entry.type = arrivalEvent) :
    (numEventsHandler server entry).numEvents = toInt (server.numEvents + 1) := by
  simp [numEventsHandler, type]

end numEvents

section arrival

variable (server : Server) (uid : Nat) (entry : Entry) (serviceTime : ℚ≥0)

@[simp] theorem arrivalHandler_type :
    (arrivalHandler server uid entry serviceTime).2.type = departureEvent := by
  unfold arrivalHandler; dsimp only; split <;> rfl

@[simp] theorem arrivalHandler_destination :
    (arrivalHandler server uid entry serviceTime).2.destination = entry.destination := by
  unfold arrivalHandler; dsimp only; split <;> rfl

@[simp] theorem arrivalHandler_origin :
    (arrivalHandler server uid entry serviceTime).2.origin = entry.destination := by
  unfold arrivalHandler; dsimp only; split <;> rfl

@[simp] theorem arrivalHandler_id :
    (arrivalHandler server uid entry serviceTime).2.id = entry.id := by
  unfold arrivalHandler; dsimp only; split <;> rfl

theorem arrivalHandler_gid :
    (arrivalHandler server uid entry serviceTime).2.gid = uid + 1 := by
  unfold arrivalHandler; dsimp only; split <;> rfl

@[simp] theorem arrivalHandler_eventPath :
    (arrivalHandler server uid entry serviceTime).2.eventPath =
      entry.origin :: entry.eventPath := by
  unfold arrivalHandler; dsimp only; split <;> rfl

@[simp] theorem arrivalHandler_eventArrivals :
    (arrivalHandler server uid entry serviceTime).2.eventArrivals =
      entry.arrival :: entry.eventArrivals := by
  unfold arrivalHandler; dsimp only; split <;> rfl

@[simp] theorem arrivalHandler_arrival :
    (arrivalHandler server uid entry serviceTime).2.arrival =
      (arrivalHandler server uid entry serviceTime).1.timeServiceEnds := by
  unfold arrivalHandler; dsimp only; split <;> rfl

@[simp] theorem arrivalHandler_busy :
    (arrivalHandler server uid entry serviceTime).1.busy = true := by
  unfold arrivalHandler
  dsimp only
  split
  · assumption
  · rfl

@[simp] theorem arrivalHandler_numEvents :
    (arrivalHandler server uid entry serviceTime).1.numEvents = server.numEvents := by
  unfold arrivalHandler; dsimp only; split <;> rfl

theorem arrivalHandler_numberInQueue :
    (arrivalHandler server uid entry serviceTime).1.numberInQueue =
      server.numberInQueue + if server.busy then 1 else 0 := by
  unfold arrivalHandler
  dsimp only
  split <;> simp_all

theorem arrivalHandler_timeServiceEnds :
    (arrivalHandler server uid entry serviceTime).1.timeServiceEnds =
      (if server.busy then server.timeServiceEnds else entry.arrival) + serviceTime := by
  unfold arrivalHandler; dsimp only; split <;> rfl

def delayOf (server : Server) (entry : Entry) : ℚ :=
  if server.busy then max 0 (server.timeServiceEnds - entry.arrival) else 0

theorem clipped_eq_max (x : ℚ) : (if x < 0 then 0 else x) = max 0 x := by
  split
  · rename_i negative
    exact (max_eq_left negative.le).symm
  · rename_i positive
    exact (max_eq_right (not_lt.mp positive)).symm

theorem arrivalHandler_delay :
    (arrivalHandler server uid entry serviceTime).2.delay =
      entry.delay + delayOf server entry := by
  unfold arrivalHandler delayOf
  dsimp only
  split
  · simp only [Entry.delayed, Entry.pushEventHistory, Entry.copy, clipped_eq_max]
  · simp [Entry.service, Entry.pushEventHistory, Entry.copy]

theorem addDelay_eq {server : Server} {count : Nat} {xbar : ℚ} (few : count + 1 < 2 ^ 31)
    (counted : server.numEvents = toInt (count + 1))
    (mean : server.averageDelayInQueue = some xbar) (delay : ℚ) :
    server.addDelay delay = some (xbar + (delay - xbar) / (count + 1 : Nat)) := by
  have own : toInt server.numEvents = (count + 1 : Nat) := by
    rw [counted, ← Nat.cast_succ, toInt_natCast few, toInt_natCast few]
  have nonzero : (((count + 1 : Nat) : Int) : ℚ) ≠ 0 := by exact_mod_cast count.succ_ne_zero
  rw [Server.addDelay, mean, Option.bind_some, Stats.mean, own, divide, if_neg nonzero,
    Option.map_some, Int.cast_natCast]

theorem arrivalHandler_averageDelayInQueue :
    (arrivalHandler server uid entry serviceTime).1.averageDelayInQueue =
      server.addDelay (delayOf server entry) := by
  unfold arrivalHandler delayOf
  dsimp only
  split
  · simp only [clipped_eq_max]
  · rfl

end arrival

section departure

variable (graph : Graph) (server : Server) (uid : Nat) (entry : Entry) (selected : Nat)

@[simp] theorem departureHandler_timeServiceEnds :
    (departureHandler graph server uid entry selected).1.timeServiceEnds =
      server.timeServiceEnds := by
  unfold departureHandler
  dsimp only
  split_ifs <;> rfl

@[simp] theorem departureHandler_numEvents :
    (departureHandler graph server uid entry selected).1.numEvents = server.numEvents := by
  unfold departureHandler
  dsimp only
  split_ifs <;> rfl

@[simp] theorem departureHandler_averageDelayInQueue :
    (departureHandler graph server uid entry selected).1.averageDelayInQueue =
      server.averageDelayInQueue := by
  unfold departureHandler
  dsimp only
  split_ifs <;> rfl

theorem departureHandler_last (empty : server.numberInQueue = 0) :
    (departureHandler graph server uid entry selected).1 = { server with busy := false } := by
  unfold departureHandler
  simp only [empty, ↓reduceIte, gt_iff_lt, lt_self_iff_false]
  split <;> rfl

theorem departureHandler_next (waiting : 0 < server.numberInQueue) :
    (departureHandler graph server uid entry selected).1 =
      { server with numberInQueue := server.numberInQueue - 1 } := by
  unfold departureHandler
  simp only [waiting.ne', ↓reduceIte, gt_iff_lt, waiting]
  split <;> rfl

theorem departureHandler_onward (inner : 0 < graph.outDegree entry.destination) :
    (departureHandler graph server uid entry selected).2 =
      (entry.copy uid).depart selected arrivalEvent := by
  unfold departureHandler
  dsimp only
  rw [if_pos inner]

theorem departureHandler_home (sink : graph.outDegree entry.destination = 0) :
    (departureHandler graph server uid entry selected).2 =
      (entry.copy uid).acknowledge entry.destination entry.destination ackEvent := by
  unfold departureHandler
  dsimp only
  rw [if_neg (by omega)]

theorem departureHandler_type :
    (departureHandler graph server uid entry selected).2.type = arrivalEvent ∨
      (departureHandler graph server uid entry selected).2.type = ackEvent := by
  rcases Nat.eq_zero_or_pos (graph.outDegree entry.destination) with sink | inner
  · exact .inr (by rw [departureHandler_home graph server uid entry selected sink]; rfl)
  · exact .inl (by rw [departureHandler_onward graph server uid entry selected inner]; rfl)

@[simp] theorem departureHandler_arrival :
    (departureHandler graph server uid entry selected).2.arrival = entry.arrival := by
  rcases Nat.eq_zero_or_pos (graph.outDegree entry.destination) with sink | inner
  · rw [departureHandler_home graph server uid entry selected sink]; rfl
  · rw [departureHandler_onward graph server uid entry selected inner]; rfl

@[simp] theorem departureHandler_id :
    (departureHandler graph server uid entry selected).2.id = entry.id := by
  rcases Nat.eq_zero_or_pos (graph.outDegree entry.destination) with sink | inner
  · rw [departureHandler_home graph server uid entry selected sink]; rfl
  · rw [departureHandler_onward graph server uid entry selected inner]; rfl

theorem departureHandler_gid :
    (departureHandler graph server uid entry selected).2.gid = uid + 1 := by
  rcases Nat.eq_zero_or_pos (graph.outDegree entry.destination) with sink | inner
  · rw [departureHandler_home graph server uid entry selected sink]; rfl
  · rw [departureHandler_onward graph server uid entry selected inner]; rfl

end departure

section ack

variable {graph : Graph} {config : Config} {uid : Nat} {entry : Entry} {pushed : List Entry}

/-- The event an acknowledgement is followed by, once `popEvent` has found the stop
before the vertex. -/
def followUp (uid : Nat) (entry : Entry) (destination : Int) : Entry :=
  if destination = externalEvent then (entry.copy uid).leave externalEvent leaveEvent
  else (entry.copy uid).acknowledge entry.destination destination ackEvent

theorem ackHandler_cases (answered : ackHandler graph config uid entry = some pushed) :
    (entry.type ≠ ackEvent ∧ pushed = []) ∨
      (entry.type = ackEvent ∧ ∃ destination popped copies,
        entry.popEvent = some (destination, popped) ∧
        pushed = followUp uid popped destination :: copies ∧
        (copies = [] ∨ (destination ≠ externalEvent ∧
          copies = ackCopies graph (uid + 1) popped destination))) := by
  unfold ackHandler at answered
  split at answered
  · rename_i type
    refine .inr ⟨type, ?_⟩
    split at answered
    · cases answered
    rename_i destination popped found
    refine ⟨destination, popped, ?_⟩
    dsimp only at answered
    split at answered
    · rename_i hops
      exact ⟨_, found, (Option.some.inj answered).symm, .inr ⟨hops.2, rfl⟩⟩
    · exact ⟨[], found, (Option.some.inj answered).symm, .inl rfl⟩
  · rename_i type
    exact .inl ⟨type, (Option.some.inj answered).symm⟩

theorem popEvent_fields {destination : Int} {popped : Entry}
    (found : entry.popEvent = some (destination, popped)) :
    ∃ time, entry.eventPath = destination :: popped.eventPath ∧
      entry.eventArrivals = time :: popped.eventArrivals ∧
      popped = { entry with
        eventPath := popped.eventPath
        eventArrivals := popped.eventArrivals } := by
  unfold Entry.popEvent at found
  split at found
  · rename_i stop path time times pathEq timesEq
    cases found
    exact ⟨time, pathEq, timesEq, rfl⟩
  · cases found

theorem mem_ackCopies {destination : Int} {copy : Entry}
    (member : copy ∈ ackCopies graph uid entry destination) :
    ∃ gid source, copy = (entry.copy gid).acknowledge entry.destination source ack1hopEvent := by
  unfold ackCopies at member
  simp only [List.mem_mapIdx] at member
  obtain ⟨index, _, rfl⟩ := member
  exact ⟨_, _, rfl⟩

@[simp] theorem followUp_arrival (uid : Nat) (entry : Entry) (destination : Int) :
    (followUp uid entry destination).arrival = entry.arrival := by
  unfold followUp; split <;> rfl

@[simp] theorem followUp_id (uid : Nat) (entry : Entry) (destination : Int) :
    (followUp uid entry destination).id = entry.id := by
  unfold followUp; split <;> rfl

theorem followUp_type (uid : Nat) (entry : Entry) (destination : Int) :
    (followUp uid entry destination).type = leaveEvent ∨
      (followUp uid entry destination).type = ackEvent := by
  unfold followUp; split
  · exact .inl rfl
  · exact .inr rfl

theorem ackHandler_pushed (answered : ackHandler graph config uid entry = some pushed)
    {next : Entry} (member : next ∈ pushed) :
    next.arrival = entry.arrival ∧ next.type ∈ [ackEvent, ack1hopEvent, leaveEvent] := by
  rcases ackHandler_cases answered with ⟨_, rfl⟩ | ⟨_, destination, popped, copies, found, rfl, rest⟩
  · cases member
  obtain ⟨_, _, _, same⟩ := popEvent_fields found
  have time : popped.arrival = entry.arrival := by rw [same]
  rcases List.mem_cons.mp member with rfl | later
  · refine ⟨by rw [followUp_arrival, time], ?_⟩
    rcases followUp_type uid popped destination with leaves | acks
    · simp [leaves]
    · simp [acks]
  · rcases rest with rfl | ⟨_, rfl⟩
    · cases later
    · obtain ⟨gid, source, rfl⟩ := mem_ackCopies later
      exact ⟨time, by simp [Entry.acknowledge]⟩

end ack

end Handlers

end RlAqs
