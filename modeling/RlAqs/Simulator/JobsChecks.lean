import RlAqs.Simulator.JobsCore
import RlAqs.Simulator.ProcessorCases

/-! Itineraries, journeys and live events, one operation at a time. -/

namespace RlAqs

open Handlers EventGenerator

section itinerary

variable {visit : Visit} {visited earlier : List Visit} {origin : Int}

theorem itinerary_cons :
    itinerary (visit :: earlier) =
      outward (visit :: earlier) ++ homeward visit.vertex (visit :: earlier) := rfl

theorem outward_prefix (visited : List Visit) : outward visited <+: itinerary visited := by
  cases visited with
  | nil => exact List.prefix_refl _
  | cons visit earlier => exact List.prefix_append _ _

@[simp] theorem outward_visits : (outward visited).filterMap Stop.visit? = visited.reverse := by
  induction visited with
  | nil => rfl
  | cons visit earlier ih =>
      simp [outward, List.filterMap_append, ih, Stop.visit?]

@[simp] theorem homeward_visits : (homeward origin visited).filterMap Stop.visit? = [] := by
  induction visited generalizing origin with
  | nil => rfl
  | cons visit earlier ih => rw [homeward, List.filterMap_cons_none rfl, ih]

@[simp] theorem itinerary_visits :
    (itinerary visited).filterMap Stop.visit? = visited.reverse := by
  cases visited with
  | nil => rfl
  | cons visit earlier => simp [itinerary_cons, List.filterMap_append]

@[simp] theorem outward_leaves : (outward visited).countP Stop.isLeave = 0 := by
  induction visited with
  | nil => rfl
  | cons visit earlier ih => simp [outward, List.countP_append, ih, Stop.isLeave]

@[simp] theorem homeward_leaves : (homeward origin visited).countP Stop.isLeave = 1 := by
  induction visited generalizing origin with
  | nil => rfl
  | cons visit earlier ih => simp [homeward, Stop.isLeave, ih]

@[simp] theorem outward_acks : (outward visited).countP Stop.isAck = 0 := by
  induction visited with
  | nil => rfl
  | cons visit earlier ih => simp [outward, List.countP_append, ih, Stop.isAck]

end itinerary

section journey

variable {id : Nat} {record : Record} {processed : List Record} {stop : Stop}

theorem journey_cons_stop (mine : record.entry.id = id)
    (found : Stop.ofEntry record.entry = some stop) :
    journey id (record :: processed) = journey id processed ++ [stop] := by
  simp [journey, mine, found]

theorem journey_cons_copy (silent : Stop.ofEntry record.entry = none) :
    journey id (record :: processed) = journey id processed := by
  by_cases mine : record.entry.id = id
  · simp [journey, mine, silent]
  · simp [journey, mine]

theorem journey_cons_other (other : record.entry.id ≠ id) :
    journey id (record :: processed) = journey id processed := by
  simp [journey, other]

end journey

/-! The event types. -/

section types

variable {entry : Entry}

theorem ofEntry_arrival (type : entry.type = lastArrivalEvent ∨ entry.type = arrivalEvent) :
    Stop.ofEntry entry = some (.arrive ⟨entry.destination, entry.arrival⟩) := by
  simp [Stop.ofEntry, type]

theorem ofEntry_departure (type : entry.type = departureEvent) :
    Stop.ofEntry entry = some (.depart entry.destination) := by
  simp [Stop.ofEntry, type]

theorem ofEntry_ack (type : entry.type = ackEvent) :
    Stop.ofEntry entry = some (.ack entry.origin entry.destination entry.topArrival) := by
  simp [Stop.ofEntry, type]

theorem ofEntry_leave (type : entry.type = leaveEvent) :
    Stop.ofEntry entry = some (.leave entry.origin) := by
  simp [Stop.ofEntry, type]

theorem ofEntry_copy (type : entry.type = ack1hopEvent) : Stop.ofEntry entry = none := by
  simp [Stop.ofEntry, type]

theorem ofEntry_admin (entry : Entry) (type : logGraphEvent ≤ entry.type) : Stop.ofEntry entry = none := by
  have apart (low : Int) (below : low < logGraphEvent) : entry.type ≠ low :=
    fun same => absurd (same ▸ type) (not_le.mpr below)
  simp [Stop.ofEntry, apart lastArrivalEvent (by decide), apart arrivalEvent (by decide),
    apart departureEvent (by decide), apart ackEvent (by decide),
    apart leaveEvent (by decide)]

theorem ofEntry_other (types : entry.type ∉
      [lastArrivalEvent, arrivalEvent, departureEvent, ackEvent, ack1hopEvent])
    (noLeave : entry.type ≠ leaveEvent) : Stop.ofEntry entry = none := by
  simp only [List.mem_cons, List.not_mem_nil, or_false, not_or] at types
  simp [Stop.ofEntry, types, noLeave]

/-- Only arrivals carry the time of the event in their stop. -/
theorem ofEntry_take_isSome (processor : Processor) (entry : Entry) :
    (Stop.ofEntry (processor.take entry)).isSome = (Stop.ofEntry entry).isSome := by
  unfold Stop.ofEntry
  simp only [Processor.take_type]
  split_ifs <;> rfl

end types

section live

variable {id : Nat} {entry : Entry} {entries : List Entry}

theorem mem_live : entry ∈ live id entries ↔
    entry ∈ entries ∧ entry.id = id ∧ (Stop.ofEntry entry).isSome := by
  simp [live]

theorem live_append (first second : List Entry) :
    live id (first ++ second) = live id first ++ live id second := by
  simp [live]

theorem live_cons_self (mine : entry.id = id) (counted : (Stop.ofEntry entry).isSome) :
    live id (entry :: entries) = entry :: live id entries := by
  simp [live, mine, counted]

theorem live_cons_skip (skip : ¬ (entry.id = id ∧ (Stop.ofEntry entry).isSome)) :
    live id (entry :: entries) = live id entries := by
  simp [live, skip]

theorem live_erase : live id (entries.erase entry) = (live id entries).erase entry :=
  List.erase_filter.symm

theorem live_erase_skip (skip : ¬ (entry.id = id ∧ (Stop.ofEntry entry).isSome)) :
    live id (entries.erase entry) = live id entries := by
  rw [live_erase]
  exact List.erase_of_not_mem fun member => skip (mem_live.mp member).2

theorem live_none (none : ∀ entry ∈ entries,
    ¬ (entry.id = id ∧ (Stop.ofEntry entry).isSome)) : live id entries = [] := by
  simpa [live, List.filter_eq_nil_iff] using none

end live

end RlAqs
